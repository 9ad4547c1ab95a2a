import Crabgresql.Router.System

/-!
# Clients behind one pool

A gateway node serves every client with a router of its own, but forwards for all
of them over one connection per leader, and that connection has one router at the
leader. Statements that are forwarded run there one after the other, on the pin,
the blocks and the settings that the statements before them left, whichever
client sent those. A node that does not lead the range of a forwarded statement
forwards it again through its own pool.
-/

namespace Crabgresql.Clients

open Mvcc Function List Option
open Cluster (NodeId RangeId)
open Router (Pin)

abbrev ClientId := ℕ

abbrev Write := ClientId × ℕ

/-- The transactional value of `timezone`. -/
structure Guc where
  committed : String
  txnSessionOverride : Option String
  txnLocalOverride : Option String
  deriving DecidableEq

namespace Guc

def default : Guc := ⟨"UTC", none, none⟩

def effective (g : Guc) : String :=
  (g.txnLocalOverride.or g.txnSessionOverride).getD g.committed

def setSession (g : Guc) (v : String) : Guc := { g with txnSessionOverride := some v }

def setLocal (g : Guc) (v : String) : Guc := { g with txnLocalOverride := some v }

def reset (g : Guc) : Guc := { g with txnSessionOverride := some "UTC" }

def commit (g : Guc) : Guc := ⟨g.txnSessionOverride.getD g.committed, none, none⟩

def rollback (g : Guc) : Guc := ⟨g.committed, none, none⟩

end Guc

inductive Stmt
  | begin (rr : Bool)
  | commit
  | rollback
  | set (isLocal : Bool) (zone : String)
  | reset
  /-- INSERT, UPDATE or DELETE on a table of the range; an unknown table has none. -/
  | write (target : Option RangeId) (label : ℕ)
  /-- A query, with the range of its tables if it has any. -/
  | query (target : Option (Option RangeId))
  | ddl
  deriving DecidableEq

inductive Txn
  | idle
  | inTransaction (rr : Bool) (writes : List Write)
  | failed (writes : List Write)
  deriving DecidableEq

/-- A session on the engine of one range. -/
structure Sess where
  txn : Txn
  guc : Guc
  deriving DecidableEq

namespace Sess

def new : Sess := ⟨.idle, .default⟩

def isFailed (s : Sess) : Bool :=
  match s.txn with
  | .failed _ => true
  | .idle | .inTransaction _ _ => false

def writes (s : Sess) : List Write :=
  match s.txn with
  | .inTransaction _ ws | .failed ws => ws
  | .idle => []

def begin (s : Sess) (rr : Bool) : Sess :=
  match s.txn with
  | .inTransaction _ _ => s
  | .idle | .failed _ => { s with txn := .inTransaction rr [] }

def commitCmd (s : Sess) (fails : Bool) : Sess × List Write :=
  match s.txn with
  | .inTransaction _ ws =>
    if fails then ({ s with txn := .idle }, []) else (⟨.idle, s.guc.commit⟩, ws)
  | .failed _ => (⟨.idle, if fails then s.guc else s.guc.rollback⟩, [])
  | .idle => (s, [])

def rollbackCmd (s : Sess) (fails : Bool) : Sess :=
  ⟨.idle, if fails then s.guc else s.guc.rollback⟩

/-- Outside a block the setting is a transaction of its own. -/
def settle (s : Sess) (guc : Guc) : Sess :=
  match s.txn with
  | .inTransaction _ _ => { s with guc := guc }
  | .idle | .failed _ => { s with guc := guc.commit }

/-- The session after the statement, and what it made durable. -/
def runStmt (s : Sess) (i : ClientId) (fails : Bool) : Stmt → Sess × List Write
  | .begin rr => (if fails then s else s.begin rr, [])
  | .commit => s.commitCmd fails
  | .rollback => (s.rollbackCmd fails, [])
  | .set isLocal zone =>
    if fails then (s, [])
    else (s.settle (if isLocal then s.guc.setLocal zone else s.guc.setSession zone), [])
  | .reset => (if fails then s else s.settle s.guc.reset, [])
  | .write _ w =>
    if fails then (s, [])
    else
      match s.txn with
      | .inTransaction rr ws => ({ s with txn := .inTransaction rr (ws ++ [(i, w)]) }, [])
      | .idle | .failed _ => (s, [(i, w)])
  | .query _ | .ddl => (s, [])

def fail (s : Sess) : Sess :=
  match s.txn with
  | .inTransaction _ ws => { s with txn := .failed ws }
  | .idle | .failed _ => s

def run (s : Sess) (i : ClientId) (fails : Bool) (stmt : Stmt) : Sess × List Write :=
  if s.isFailed ∧ stmt ≠ .commit ∧ stmt ≠ .rollback then (s, [])
  else
    let out := s.runStmt i fails stmt
    if fails then (out.1.fail, out.2) else out

end Sess

/-- A router and its session on every range. -/
structure Conn where
  pin : Pin
  sessions : RangeId → Sess

/-- What a router meets while it dispatches a statement. -/
structure Env where
  leads : RangeId → Bool
  serving : RangeId → Bool
  canEscalate : Bool
  /-- The answers of the coordinator and of the sessions it enlists. -/
  begun : Option Xid
  enlists : Bool
  decided : Option Bool
  /-- The session reports an error. -/
  fails : Bool

/-- What a dispatch does: the connection after it, the writes made durable, the session that ran the
statement with the state it found, and the range the statement is forwarded to. -/
structure Done where
  conn : Conn
  durable : List Write
  ran : Option (RangeId × Sess)
  forwarded : Option RangeId

def Stmt.pinningRange : Stmt → Option (Option RangeId)
  | .write (some r) _ => some (some r)
  | .query (some target) => some target
  | .write none _ | .query none => none
  | .begin _ | .commit | .rollback | .set _ _ | .reset | .ddl => some none

def Stmt.isWrite : Stmt → Bool
  | .write _ _ => true
  | .begin _ | .commit | .rollback | .set _ _ | .reset | .query _ | .ddl => false

namespace Conn

def new : Conn := ⟨.none, fun _ => .new⟩

variable (env : Env) (i : ClientId) (stmt : Stmt)

def keep (c : Conn) : Done := ⟨c, [], none, none⟩

def setSession (c : Conn) (r : RangeId) (s : Sess) : Conn :=
  { c with sessions := update c.sessions r s }

def runSession (r : RangeId) (c : Conn) : Done :=
  let out := (c.sessions r).run i env.fails stmt
  ⟨c.setSession r out.1, out.2, some (r, c.sessions r), none⟩

def runOn (r : RangeId) (c : Conn) : Done :=
  if env.leads r then c.runSession env i stmt r else ⟨c, [], none, some r⟩

def ensureBegan (r : RangeId) (c : Conn) : Conn :=
  match (c.sessions r).txn with
  | .idle => c.setSession r ((c.sessions r).begin false)
  | .inTransaction _ _ | .failed _ => c

/-- A participant that is not led here is staged over the coordinator, not over the pool. -/
def stageOn (r : RangeId) (c : Conn) : Done :=
  if env.leads r then
    if env.serving r then
      let c := c.ensureBegan r
      if env.enlists then c.runSession env i stmt r else c.keep
    else c.keep
  else c.keep

def escalate (ranges : List RangeId) (r : RangeId) (c : Conn) : Done :=
  if env.canEscalate then
    match env.begun with
    | some g => Conn.stageOn env i stmt r { c with pin := .global ranges g }
    | none => c.keep
  else c.keep

def route (pinning : Option RangeId) (c : Conn) : Done :=
  match c.pin with
  | .none => c.runOn env i stmt (pinning.getD 0)
  | .opened =>
    match pinning with
    | some r =>
      if env.leads r then
        let c : Conn := { c with pin := .range r }
        if env.enlists then (c.ensureBegan r).runOn env i stmt r else c.keep
      else c.escalate env i stmt [r] r
    | none => c.runOn env i stmt 0
  | .range p =>
    match pinning with
    | some r =>
      if r ≠ p then
        if env.enlists then c.escalate env i stmt [p, r] r else c.keep
      else c.runOn env i stmt p
    | none => c.runOn env i stmt p
  | .global ranges g =>
    match pinning with
    | some r => Conn.stageOn env i stmt r { c with pin := .global (ranges.insert r) g }
    | none => c.runOn env i stmt 0

/-- The participants this node leads are released after the decision. -/
def release (ranges : List RangeId) (c : Conn) : Conn :=
  { c with sessions := fun r =>
      if r ∈ ranges ∧ env.leads r then { c.sessions r with txn := .idle } else c.sessions r }

def finishTxn (c : Conn) : Done :=
  let closed : Conn := { c with pin := .none }
  match c.pin with
  | .global ranges _ =>
    match env.decided with
    | none => closed.keep
    | some committed =>
      ⟨closed.release env ranges,
        if committed then ranges.flatMap fun r => (c.sessions r).writes else [], none, none⟩
  | .range p => closed.runOn env i stmt p
  | .opened | .none => closed.runOn env i stmt 0

def dispatch (c : Conn) : Done :=
  match stmt.pinningRange with
  | none => c.keep
  | some pinning =>
    if stmt.isWrite ∧ pinning.any (fun r => env.leads r && !env.serving r) then c.keep
    else
      match stmt with
      | .begin _ => Conn.runOn env i stmt 0 (if c.pin = .none then { c with pin := .opened } else c)
      | .commit | .rollback => c.finishTxn env i stmt
      | _ => c.route env i stmt pinning

end Conn

/-! ## The nodes and their pools -/

inductive ConnId
  | client (n : NodeId) (i : ClientId)
  /-- The pooled connection of a gateway to a leader. -/
  | pooled (gateway leader : NodeId)
  deriving DecidableEq

def ConnId.node : ConnId → NodeId
  | .client n _ => n
  | .pooled _ leader => leader

structure Forwarded where
  gateway : NodeId
  range : RangeId
  client : ClientId
  stmt : Stmt

/-- A statement that a session ran, with the state the session was in. -/
structure Entry where
  client : ClientId
  conn : ConnId
  range : RangeId
  stmt : Stmt
  failed : Bool
  before : Sess

structure System where
  conns : ConnId → Conn
  forwards : List Forwarded
  durable : List Write
  log : List Entry

namespace System

def initial : System := ⟨fun _ => .new, [], [], []⟩

def runAt (S : System) (id : ConnId) (i : ClientId) (stmt : Stmt) (env : Env) : System :=
  let done := (S.conns id).dispatch env i stmt
  { conns := update S.conns id done.conn
    forwards := S.forwards ++ (done.forwarded.map fun r => ⟨id.node, r, i, stmt⟩).toList
    durable := S.durable ++ done.durable
    log := S.log ++ (done.ran.map fun p => ⟨i, id, p.1, stmt, env.fails, p.2⟩).toList }

end System

inductive Action
  | dispatch (n : NodeId) (i : ClientId) (stmt : Stmt) (env : Env)
  /-- The leader's router gets the forwarded statement; the pool may send it again. -/
  | serve (q : ℕ) (leader : NodeId) (again : Bool) (env : Env)
  /-- The pool dials the leader anew. -/
  | redial (gateway leader : NodeId)

def step (S : System) : Action → Option System
  | .dispatch n i stmt env => some (S.runAt (.client n i) i stmt env)
  | .serve q leader again env =>
    match S.forwards[q]? with
    | none => none
    | some f =>
      let S := if again then S else { S with forwards := S.forwards.eraseIdx q }
      some (S.runAt (.pooled f.gateway leader) f.client f.stmt env)
  | .redial gateway leader =>
    some { S with conns := update S.conns (.pooled gateway leader) .new }

def Stmt.plain : Stmt → Bool
  | .begin _ | .set _ _ => false
  | .commit | .rollback | .reset | .write _ _ | .query _ | .ddl => true

def Conn.home (c : Conn) : Stmt → RangeId
  | .begin _ => 0
  | _ =>
    match c.pin with
    | .range p => p
    | .none | .opened | .global _ _ => 0

/-- A client's BEGIN and SET run on its own node. -/
def Confined (S : System) : Action → Prop
  | .dispatch n i stmt env =>
    stmt.plain = false → env.leads ((S.conns (.client n i)).home stmt) = true
  | .serve _ _ _ _ | .redial _ _ => True

/-! ## Forwarded statements run on idle sessions -/

variable {stmt : Stmt}

theorem run_new (i : ClientId) (fails : Bool) (h : stmt.plain = true) :
    (Sess.new.run i fails stmt).1 = .new := by
  cases stmt with
  | begin | set => cases h
  | _ => cases fails <;> rfl

theorem setSession_new (r : RangeId) : Conn.new.setSession r .new = .new := by
  rw [Conn.setSession, Conn.new, update_eq_self]

/-- A new connection stays as new. -/
structure Untouched (i : ClientId) (env : Env) (stmt : Stmt) (done : Done) : Prop where
  conn : done.conn = .new
  ran : ∀ r s, done.ran = some (r, s) → s = .new
  durable : ∀ p t w, done.ran = some p → stmt = .write t w → env.fails = false →
    (i, w) ∈ done.durable

theorem untouched_keep (i : ClientId) (env : Env) (stmt : Stmt) :
    Untouched i env stmt Conn.new.keep := ⟨rfl, nofun, nofun⟩

theorem untouched_runOn (i : ClientId) (env : Env) (h : stmt.plain = true)
    (r : RangeId) : Untouched i env stmt (Conn.new.runOn env i stmt r) := by
  rw [Conn.runOn]
  split_ifs
  · refine ⟨?_, ?_, ?_⟩
    · have hnew : (Conn.new.sessions r).run i env.fails stmt = Sess.new.run i env.fails stmt := rfl
      rw [Conn.runSession, hnew]
      simp only [run_new i env.fails h, setSession_new]
    · intro r' s hran
      cases hran
      rfl
    · rintro p t w - rfl hfails
      rw [Conn.runSession, hfails]
      exact mem_singleton.mpr rfl
  · exact ⟨rfl, nofun, nofun⟩

theorem untouched_dispatch (i : ClientId) (env : Env) (h : stmt.plain = true) :
    Untouched i env stmt (Conn.new.dispatch env i stmt) := by
  have hrun := untouched_runOn i env h
  rw [Conn.dispatch.eq_def]
  cases hpinning : stmt.pinningRange with
  | none => exact untouched_keep i env stmt
  | some pinning =>
    simp only
    by_cases hgate : stmt.isWrite = true ∧
        pinning.any (fun r => env.leads r && !env.serving r) = true
    · rw [if_pos hgate]
      exact untouched_keep i env stmt
    · rw [if_neg hgate]
      cases stmt with
      | begin | set => cases h
      | commit | rollback => exact hrun 0
      | _ => exact hrun (pinning.getD 0)

theorem forwarded_eq_none (i : ClientId) (env : Env) (h : stmt.plain = false)
    (c : Conn) (hleads : env.leads (c.home stmt) = true) :
    (c.dispatch env i stmt).forwarded = none := by
  have hrun : ∀ (c : Conn) r, env.leads r = true → (c.runOn env i stmt r).forwarded = none := by
    intro c r hr
    rw [Conn.runOn, if_pos hr]
    rfl
  cases stmt with
  | begin => exact hrun _ 0 hleads
  | set =>
    change (c.route env i _ none).forwarded = none
    rw [Conn.route.eq_def]
    rw [Conn.home.eq_def] at hleads
    cases hpin : c.pin with
    | range p =>
      rw [hpin] at hleads
      exact hrun c p hleads
    | _ =>
      rw [hpin] at hleads
      exact hrun c 0 hleads
  | _ => cases h

/-- Pooled connections are as new, and so was every session that a forwarded statement met. -/
structure Separate (S : System) : Prop where
  forwards : ∀ f ∈ S.forwards, f.stmt.plain = true
  pooled : ∀ g m, S.conns (.pooled g m) = .new
  log : ∀ e ∈ S.log, ∀ g m, e.conn = .pooled g m → e.before = .new
  durable : ∀ e ∈ S.log, ∀ g m, e.conn = .pooled g m → ∀ t w, e.stmt = .write t w →
    e.failed = false → (e.client, w) ∈ S.durable

theorem separate_initial : Separate .initial := ⟨nofun, fun _ _ => rfl, nofun, nofun⟩

theorem Separate.runAt {S : System} (h : Separate S) (id : ConnId) (i : ClientId) (stmt : Stmt)
    (env : Env)
    (hforwarded : ∀ r, ((S.conns id).dispatch env i stmt).forwarded = some r → stmt.plain = true)
    (hpooled : ∀ g m, id = .pooled g m →
      Untouched i env stmt ((S.conns id).dispatch env i stmt)) :
    Separate (S.runAt id i stmt env) := by
  refine ⟨?_, ?_, ?_, ?_⟩
  · intro f hf
    obtain hold | hnew := mem_append.mp hf
    · exact h.forwards f hold
    · obtain ⟨r, hr, rfl⟩ := map_eq_some_iff.mp (mem_toList.mp hnew)
      exact hforwarded r hr
  · intro g m
    change update S.conns id _ (.pooled g m) = _
    by_cases hid : ConnId.pooled g m = id
    · rw [hid, update_self]
      exact (hpooled g m hid.symm).conn
    · rw [update_of_ne hid]
      exact h.pooled g m
  · intro e he g m hconn
    obtain hold | hnew := mem_append.mp he
    · exact h.log e hold g m hconn
    · obtain ⟨p, hp, rfl⟩ := map_eq_some_iff.mp (mem_toList.mp hnew)
      exact (hpooled g m hconn).ran p.1 p.2 hp
  · intro e he g m hconn t w hstmt hok
    obtain hold | hnew := mem_append.mp he
    · exact mem_append_left _ (h.durable e hold g m hconn t w hstmt hok)
    · obtain ⟨p, hp, rfl⟩ := map_eq_some_iff.mp (mem_toList.mp hnew)
      exact mem_append_right _ ((hpooled g m hconn).durable p t w hp hstmt hok)

theorem Separate.step {S T : System} {a : Action} (h : Separate S) (hok : Confined S a)
    (hstep : step S a = some T) : Separate T := by
  cases a with
  | dispatch n i stmt env =>
    cases hstep
    refine h.runAt _ i stmt env ?_ nofun
    intro r hr
    by_contra hplain
    rw [Bool.not_eq_true] at hplain
    rw [forwarded_eq_none i env hplain _ (hok hplain)] at hr
    cases hr
  | serve q leader again env =>
    rw [Clients.step] at hstep
    cases hf : S.forwards[q]? with
    | none =>
      rw [hf] at hstep
      cases hstep
    | some f =>
      rw [hf] at hstep
      cases hstep
      have hplain := h.forwards f (mem_of_getElem? hf)
      have hrest :
          Separate (if again then S else { S with forwards := S.forwards.eraseIdx q }) := by
        split_ifs
        · exact h
        · exact { h with forwards := fun g hg => h.forwards g (mem_of_mem_eraseIdx hg) }
      refine hrest.runAt _ f.client f.stmt env (fun _ _ => hplain) fun g m hid => ?_
      rw [hrest.pooled]
      exact untouched_dispatch f.client env hplain
  | redial gateway leader =>
    cases hstep
    refine { h with pooled := fun g m => ?_ }
    change update S.conns _ Conn.new (.pooled g m) = _
    by_cases hid : ConnId.pooled g m = .pooled gateway leader
    · rw [hid, update_self]
    · rw [update_of_ne hid]
      exact h.pooled g m

/-- While clients' BEGIN and SET run on their own node, every forwarded statement runs on a session
with no open block, no uncommitted write and the default settings, and a forwarded write that
succeeds is durable. -/
theorem forwarded_statements_separate {S : System} {as : List Action}
    (hrun : Runs.exec step .initial as = some S) (hok : Runs.Along step Confined .initial as) :
    ∀ e ∈ S.log, ∀ g m, e.conn = .pooled g m → e.before = .new ∧
      ∀ t w, e.stmt = .write t w → e.failed = false → (e.client, w) ∈ S.durable := by
  have h : Separate S :=
    Runs.exec_invariant (fun _ _ _ hS hconf hstep => hS.step hconf hstep) separate_initial hok hrun
  exact fun e he g m hconn => ⟨h.log e he g m hconn, h.durable e he g m hconn⟩

def Env.leading (lo hi : RangeId) : Env where
  leads r := lo ≤ r && r < hi
  serving _ := true
  canEscalate := true
  begun := some 1
  enlists := true
  decided := some true
  fails := false

/-- Node 0 leads nothing and node 1 ranges 0 to 2. Client 0 begins a block, client 1 inserts outside
any block, client 0 rolls back. -/
def sharedBlock : List Action :=
  [.dispatch 0 0 (.begin false) (.leading 0 0), .serve 0 1 false (.leading 0 3),
    .dispatch 0 1 (.write (some 2) 7) (.leading 0 0), .serve 0 1 false (.leading 0 3),
    .dispatch 0 0 .rollback (.leading 0 0), .serve 0 1 false (.leading 0 3)]

/-- The insert of client 1 ran inside the block of client 0, and went with it. -/
theorem insert_rolled_back_by_other_client : ∃ S, Runs.exec step .initial sharedBlock = some S ∧
    (∃ e ∈ S.log, e.client = 1 ∧ e.stmt = .write (some 2) 7 ∧ e.failed = false ∧
      e.conn = .pooled 0 1 ∧ e.before.txn = .inTransaction false []) ∧
    S.durable = [] :=
  ⟨_, rfl, ⟨_, mem_cons_of_mem _ mem_cons_self, rfl, rfl, rfl, rfl, rfl⟩, rfl⟩

def ownBlock : List Action :=
  [.dispatch 0 0 (.begin false) (.leading 0 1), .dispatch 0 1 (.write (some 2) 7) (.leading 0 1),
    .serve 0 1 false (.leading 1 3), .dispatch 0 0 .rollback (.leading 0 1)]

theorem forwarded_statements_separate_own_block : ∃ S,
    Runs.exec step .initial ownBlock = some S ∧ (1, 7) ∈ S.durable := by
  refine ⟨_, rfl, ?_⟩
  refine (@forwarded_statements_separate _ ownBlock rfl ?_
    ⟨1, .pooled 0 1, 2, .write (some 2) 7, false, .new⟩ ?_ 0 1 rfl).2 (some 2) 7 rfl rfl
  · refine ⟨fun _ => rfl, ?_⟩
    rintro _ ⟨⟩
    refine ⟨nofun, fun _ _ => ⟨trivial, fun _ _ => ⟨nofun, fun _ _ => trivial⟩⟩⟩
  · exact mem_cons_of_mem _ mem_cons_self

end Crabgresql.Clients
