import Crabgresql.Forward.Clients

/-!
# Settings of a session

SET, SET LOCAL, RESET and SHOW on one session, with the blocks they run in. A block ends by COMMIT
or ROLLBACK, whose record may not be written, or by the release of a participant after the
coordinator's decision. Beside the session runs an account of what its replies say: the value that
was established last, and what the open block has staged.
-/

namespace Crabgresql.Settings

open Clients (Guc)

inductive SetValue
  | default
  | value (v : String)
  deriving DecidableEq

inductive Stmt
  | begin
  | commit
  | rollback
  | set (isLocal : Bool) (name : String) (value : SetValue)
  | reset (name : String)
  | «show» (name : String)
  /-- Any other statement: DML, a query or DDL. -/
  | other
  deriving DecidableEq

inductive ExecError
  | inFailedTransaction
  | unrecognizedParameter (name : String)
  | invalidParameterValue (shown : String)
  /-- The statement's own error, or the error of the committer. -/
  | failed
  deriving DecidableEq

inductive Reply
  | command (tag : String)
  | row (value : String)
  deriving DecidableEq

/-- A block, with whether it has an xid. -/
inductive Txn
  | idle
  | inTransaction (xid : Bool)
  | failed (xid : Bool)
  deriving DecidableEq

structure Sess where
  txn : Txn
  guc : Guc
  deriving DecidableEq

/-- What a statement meets: an error of the gate, of the committer or of its own, and for a
statement in a block whether it takes the block's xid. -/
structure Env where
  fails : Bool
  allocates : Bool
  deriving DecidableEq

abbrev Outcome := Except ExecError Reply × Sess

def eqIgnoreAsciiCase (a b : String) : Bool :=
  a.toList.map Char.toLower == b.toList.map Char.toLower

/-- The parameters that are accepted at their default only. -/
def defaultOk (name : String) (value : SetValue) : Option Bool :=
  let at_ (text : String) : Bool :=
    match value with
    | .value v => eqIgnoreAsciiCase v text
    | .default => true
  if name = "datestyle" then some (at_ "ISO, MDY")
  else if name = "intervalstyle" then some (at_ "postgres")
  else none

def SetValue.shown : SetValue → String
  | .value v => v
  | .default => "DEFAULT"

def SetValue.zone : SetValue → String
  | .value v => v
  | .default => "UTC"

namespace Sess

def new : Sess := ⟨.idle, .default⟩

section

-- The zones of the time zone database.
variable (known : String → Bool)

def setGuc (s : Sess) (isLocal : Bool) (name : String) (value : SetValue) : Outcome :=
  if !eqIgnoreAsciiCase name "timezone" then
    match defaultOk name value with
    | none => (.error (.unrecognizedParameter name), s)
    | some ok =>
      if ok then (.ok (.command "SET"), s) else (.error (.invalidParameterValue value.shown), s)
  else if !eqIgnoreAsciiCase value.zone "UTC" && !known value.zone then
    (.error (.invalidParameterValue value.zone), s)
  else
    let guc := if isLocal then s.guc.setLocal value.zone else s.guc.setSession value.zone
    match s.txn with
    | .inTransaction _ => (.ok (.command "SET"), { s with guc := guc })
    | .idle | .failed _ => (.ok (.command "SET"), { s with guc := guc.commit })

def resetGuc (s : Sess) (name : String) : Outcome :=
  if !eqIgnoreAsciiCase name "timezone" then (.error (.unrecognizedParameter name), s)
  else
    match s.txn with
    | .idle => (.ok (.command "RESET"), { s with guc := s.guc.reset.commit })
    | .inTransaction _ | .failed _ => (.ok (.command "RESET"), { s with guc := s.guc.reset })

def showGuc (s : Sess) (name : String) : Outcome :=
  if !eqIgnoreAsciiCase name "timezone" then (.error (.unrecognizedParameter name), s)
  else (.ok (.row s.guc.effective), s)

def begin (s : Sess) (env : Env) : Outcome :=
  match s.txn with
  | .inTransaction _ => (.ok (.command "BEGIN"), s)
  | .idle | .failed _ =>
    if env.fails then (.error .failed, s)
    else (.ok (.command "BEGIN"), { s with txn := .inTransaction false })

/-- The block is closed first; without an xid there is no record to write. -/
def commitCmd (s : Sess) (env : Env) : Outcome :=
  match s.txn with
  | .inTransaction xid =>
    if xid && env.fails then (.error .failed, { s with txn := .idle })
    else (.ok (.command "COMMIT"), ⟨.idle, s.guc.commit⟩)
  | .failed xid =>
    if xid && env.fails then (.error .failed, { s with txn := .idle })
    else (.ok (.command "ROLLBACK"), ⟨.idle, s.guc.rollback⟩)
  | .idle => (.ok (.command "COMMIT"), s)

def rollbackCmd (s : Sess) (env : Env) : Outcome :=
  match s.txn with
  | .inTransaction xid | .failed xid =>
    if xid && env.fails then (.error .failed, { s with txn := .idle })
    else (.ok (.command "ROLLBACK"), ⟨.idle, s.guc.rollback⟩)
  | .idle => (.ok (.command "ROLLBACK"), ⟨.idle, s.guc.rollback⟩)

/-- A statement in a block may take an xid also when it fails. -/
def other (s : Sess) (env : Env) : Outcome :=
  let s' : Sess :=
    match s.txn with
    | .inTransaction xid => { s with txn := .inTransaction (xid || env.allocates) }
    | .idle | .failed _ => s
  (if env.fails then .error .failed else .ok (.command "OTHER"), s')

def runStmt (s : Sess) (env : Env) : Stmt → Outcome
  | .begin => s.begin env
  | .commit => s.commitCmd env
  | .rollback => s.rollbackCmd env
  | .set isLocal name value => s.setGuc known isLocal name value
  | .reset name => s.resetGuc name
  | .show name => s.showGuc name
  | .other => s.other env

def fail (s : Sess) : Sess :=
  match s.txn with
  | .inTransaction xid => { s with txn := .failed xid }
  | .idle | .failed _ => s

def isFailed (s : Sess) : Bool :=
  match s.txn with
  | .failed _ => true
  | .idle | .inTransaction _ => false

def runOne (s : Sess) (env : Env) (stmt : Stmt) : Outcome :=
  if s.isFailed && stmt != .commit && stmt != .rollback then (.error .inFailedTransaction, s)
  else
    match s.runStmt known env stmt with
    | (.error e, s') => (.error e, s'.fail)
    | (.ok r, s') => (.ok r, s')

end

/-- A participant is released after the decision: the settings are not touched. -/
def release (s : Sess) : Sess := { s with txn := .idle }

end Sess

/-! ## What the replies say -/

/-- The settings made in a block. -/
structure Staged where
  session : Option String
  inBlock : Option String
  deriving DecidableEq

/-- The value established last, and the open block. -/
structure Account where
  value : String
  block : Option Staged
  deriving DecidableEq

namespace Account

variable {stmt : Stmt}

def new : Account := ⟨"UTC", none⟩

/-- The block is over: its SETs count if it has committed. -/
def close (A : Account) (committed : Bool) : Account :=
  match A.block with
  | some b => ⟨if committed then b.session.getD A.value else A.value, none⟩
  | none => A

/-- A SET or RESET was executed. -/
def establish (A : Account) (v : String) : Account :=
  match A.block with
  | some b => { A with block := some { b with session := some v } }
  | none => { A with value := v }

/-- A SET LOCAL was executed; outside a block it has no effect. -/
def establishLocal (A : Account) (v : String) : Account :=
  match A.block with
  | some b => { A with block := some { b with inBlock := some v } }
  | none => A

def opens (A : Account) : Account :=
  match A.block with
  | some _ => A
  | none => { A with block := some ⟨none, none⟩ }

def after (A : Account) : Stmt → Except ExecError Reply → Account
  | .begin, .ok _ => A.opens
  | .commit, reply => A.close (reply matches .ok (.command "COMMIT"))
  | .rollback, _ => A.close false
  | .set isLocal name value, .ok _ =>
    if eqIgnoreAsciiCase name "timezone" then
      if isLocal then A.establishLocal value.zone else A.establish value.zone
    else A
  | .reset _, .ok _ => A.establish "UTC"
  | .begin, .error _ | .set _ _ _, .error _ | .reset _, .error _ | .show _, _ | .other, _ => A

/-- The value that a statement has to see. -/
def shown (A : Account) : String :=
  match A.block with
  | some b => (b.inBlock.or b.session).getD A.value
  | none => A.value

end Account

/-! ## Runs -/

structure World where
  sess : Sess
  account : Account
  deriving DecidableEq

inductive Act
  | stmt (s : Stmt) (env : Env)
  /-- The coordinator's decision releases the session's block. -/
  | release (committed : Bool)
  deriving DecidableEq

def World.new : World := ⟨.new, .new⟩

def step (known : String → Bool) (W : World) : Act → Option World
  | .stmt s env =>
    let (reply, sess) := W.sess.runOne known env s
    some ⟨sess, W.account.after s reply⟩
  | .release committed => some ⟨W.sess.release, W.account.close committed⟩

def unstaged (g : Guc) : Bool := g.txnSessionOverride.isNone && g.txnLocalOverride.isNone

def Sess.hasXid (s : Sess) : Bool :=
  match s.txn with
  | .inTransaction xid | .failed xid => xid
  | .idle => false

/-- A block that ends by a release, or whose record is not written, has made no setting. -/
def quiet (W : World) : Act → Bool
  | .stmt s env =>
    !((s == .commit || s == .rollback) && W.sess.hasXid && env.fails) || unstaged W.sess.guc
  | .release _ => unstaged W.sess.guc

/-! ## The session keeps the account -/

def Sess.view (s : Sess) : Account :=
  ⟨s.guc.committed,
    match s.txn with
    | .idle => none
    | .inTransaction _ | .failed _ => some ⟨s.guc.txnSessionOverride, s.guc.txnLocalOverride⟩⟩

/-- Outside a block nothing is staged. -/
def Sess.Settled (s : Sess) : Prop := s.txn = .idle → unstaged s.guc = true

theorem view_fail (s : Sess) : s.fail.view = s.view := by
  obtain ⟨txn, guc⟩ := s
  cases txn <;> rfl

theorem settled_fail {s : Sess} (h : s.Settled) : s.fail.Settled := by
  obtain ⟨txn, guc⟩ := s
  cases txn with
  | idle => exact h
  | inTransaction | failed => exact nofun

theorem guc_eq_of_unstaged {g : Guc} (h : unstaged g = true) : g = ⟨g.committed, none, none⟩ := by
  obtain ⟨committed, session, inBlock⟩ := g
  cases session <;> cases inBlock <;> first | rfl | cases h

theorem shown_view {s : Sess} (h : s.Settled) : s.view.shown = s.guc.effective := by
  obtain ⟨txn, guc⟩ := s
  cases txn with
  | idle =>
    have hguc : guc = ⟨guc.committed, none, none⟩ := guc_eq_of_unstaged (h rfl)
    rw [hguc]
    rfl
  | inTransaction | failed => rfl

/-- The session after the statement is the account after the reply. -/
structure Follows (s : Sess) (stmt : Stmt) (out : Outcome) : Prop where
  view : out.2.view = s.view.after stmt out.1
  settled : out.2.Settled

section

variable {known : String → Bool} {s : Sess} {env : Env}

theorem follows_begin (h : s.Settled) : Follows s .begin (s.begin env) := by
  obtain ⟨txn, guc⟩ := s
  cases txn with
  | inTransaction => exact ⟨rfl, h⟩
  | idle =>
    cases hf : env.fails with
    | true =>
      simp only [Sess.begin, hf, if_true]
      exact ⟨rfl, h⟩
    | false =>
      have hguc : guc = ⟨guc.committed, none, none⟩ := guc_eq_of_unstaged (h rfl)
      simp only [Sess.begin, hf, Bool.false_eq_true, if_false]
      refine ⟨?_, nofun⟩
      rw [hguc]
      rfl
  | failed =>
    cases hf : env.fails with
    | true =>
      simp only [Sess.begin, hf, if_true]
      exact ⟨rfl, h⟩
    | false =>
      simp only [Sess.begin, hf, Bool.false_eq_true, if_false]
      exact ⟨rfl, nofun⟩

theorem follows_closed {txn : Txn} {guc : Guc} {reply : Except ExecError Reply} {committed : Bool}
    (hafter : ∀ A : Account, A.after stmt reply = A.close committed) (h : unstaged guc = true) : Follows ⟨txn, guc⟩ stmt (reply, ⟨.idle, guc⟩) := by
  refine ⟨?_, fun _ => h⟩
  have hguc : guc = ⟨guc.committed, none, none⟩ := guc_eq_of_unstaged h
  rw [hafter, hguc]
  cases txn <;> cases committed <;> rfl

theorem follows_commitCmd (h : s.Settled)
    (hq : s.hasXid = true → env.fails = true → unstaged s.guc = true) :
    Follows s .commit (s.commitCmd env) := by
  obtain ⟨txn, guc⟩ := s
  cases txn with
  | idle => exact follows_closed (fun _ => rfl) (h rfl)
  | inTransaction | failed =>
    rw [Sess.commitCmd]
    dsimp only
    split_ifs with hfails
    · rw [Bool.and_eq_true] at hfails
      exact follows_closed (fun _ => rfl) (hq hfails.1 hfails.2)
    · exact ⟨rfl, fun _ => rfl⟩

theorem follows_rollbackCmd (hq : s.hasXid = true → env.fails = true → unstaged s.guc = true) :
    Follows s .rollback (s.rollbackCmd env) := by
  obtain ⟨txn, guc⟩ := s
  cases txn with
  | idle => exact ⟨rfl, fun _ => rfl⟩
  | inTransaction | failed =>
    rw [Sess.rollbackCmd]
    dsimp only
    split_ifs with hfails
    · rw [Bool.and_eq_true] at hfails
      exact follows_closed (fun _ => rfl) (hq hfails.1 hfails.2)
    · exact ⟨rfl, fun _ => rfl⟩

theorem after_set {name : String} (hname : eqIgnoreAsciiCase name "timezone" = true)
    (A : Account) (isLocal : Bool) (value : SetValue) (r : Reply) :
    A.after (.set isLocal name value) (.ok r) =
      if isLocal then A.establishLocal value.zone else A.establish value.zone := by
  simp only [Account.after, hname, if_true]

theorem view_setGuc (h : s.Settled) (hf : s.isFailed = false) {name : String}
    (hname : eqIgnoreAsciiCase name "timezone" = true) {value : SetValue}
    (hzone : (!eqIgnoreAsciiCase value.zone "UTC" && !known value.zone) = false) (isLocal : Bool) :
    Follows s (.set isLocal name value) (s.setGuc known isLocal name value) := by
  rw [Sess.setGuc, hname, hzone]
  obtain ⟨txn, guc⟩ := s
  cases txn with
  | idle =>
    have hguc : guc = ⟨guc.committed, none, none⟩ := guc_eq_of_unstaged (h rfl)
    refine ⟨Eq.trans ?_ (after_set hname _ isLocal value (.command "SET")).symm, fun _ => rfl⟩
    rw [hguc]
    cases isLocal <;> rfl
  | inTransaction =>
    refine ⟨Eq.trans ?_ (after_set hname _ isLocal value (.command "SET")).symm, nofun⟩
    cases isLocal <;> rfl
  | failed => cases hf

theorem follows_setGuc (h : s.Settled) (hf : s.isFailed = false) (isLocal : Bool) (name : String)
    (value : SetValue) :
    Follows s (.set isLocal name value) (s.setGuc known isLocal name value) := by
  cases hname : eqIgnoreAsciiCase name "timezone" with
  | false =>
    rw [Sess.setGuc, hname]
    have hafter : ∀ r, s.view.after (.set isLocal name value) r = s.view := by
      intro r
      cases r with
      | error => rfl
      | ok => simp [Account.after, hname]
    cases hok : defaultOk name value with
    | none => exact ⟨(hafter _).symm, h⟩
    | some ok =>
      cases ok with
      | false | true => exact ⟨(hafter _).symm, h⟩
  | true =>
    cases hzone : !eqIgnoreAsciiCase value.zone "UTC" && !known value.zone with
    | false => exact view_setGuc h hf hname hzone isLocal
    | true =>
      rw [Sess.setGuc, hname, hzone]
      exact ⟨rfl, h⟩

theorem follows_resetGuc (h : s.Settled) (hf : s.isFailed = false) (name : String) :
    Follows s (.reset name) (s.resetGuc name) := by
  cases hname : eqIgnoreAsciiCase name "timezone" with
  | false =>
    rw [Sess.resetGuc, hname]
    exact ⟨rfl, h⟩
  | true =>
    rw [Sess.resetGuc, hname]
    obtain ⟨txn, guc⟩ := s
    cases txn with
    | idle => exact ⟨rfl, fun _ => rfl⟩
    | inTransaction => exact ⟨rfl, nofun⟩
    | failed => cases hf

theorem follows_showGuc (h : s.Settled) (name : String) :
    Follows s (.show name) (s.showGuc name) := by
  rw [Sess.showGuc]
  split_ifs <;> exact ⟨rfl, h⟩

theorem follows_other (h : s.Settled) : Follows s .other (s.other env) := by
  obtain ⟨txn, guc⟩ := s
  cases txn with
  | idle | failed => exact ⟨rfl, h⟩
  | inTransaction => exact ⟨rfl, nofun⟩

theorem follows_runStmt (h : s.Settled) (hf : s.isFailed = true → stmt = .commit ∨ stmt = .rollback)
    (hq : stmt = .commit ∨ stmt = .rollback → s.hasXid = true → env.fails = true → unstaged s.guc = true) : Follows s stmt (s.runStmt known env stmt) := by
  have hopen : stmt ≠ .commit → stmt ≠ .rollback → s.isFailed = false := by
    intro hc hr
    cases hs : s.isFailed with
    | false => rfl
    | true => exact ((hf hs).elim hc hr).elim
  cases stmt with
  | begin => exact follows_begin h
  | commit => exact follows_commitCmd h (hq (.inl rfl))
  | rollback => exact follows_rollbackCmd (hq (.inr rfl))
  | set isLocal name value => exact follows_setGuc h (hopen nofun nofun) isLocal name value
  | reset name => exact follows_resetGuc h (hopen nofun nofun) name
  | «show» name => exact follows_showGuc h name
  | other => exact follows_other h

theorem after_failed (hc : stmt ≠ .commit) (hr : stmt ≠ .rollback) (A : Account) (e : ExecError) : A.after stmt (.error e) = A := by
  cases stmt with
  | commit => exact absurd rfl hc
  | rollback => exact absurd rfl hr
  | _ => rfl

theorem follows_runOne (h : s.Settled)
    (hq : stmt = .commit ∨ stmt = .rollback → s.hasXid = true → env.fails = true → unstaged s.guc = true) : Follows s stmt (s.runOne known env stmt) := by
  rw [Sess.runOne]
  by_cases hguard : (s.isFailed && stmt != .commit && stmt != .rollback) = true
  · rw [if_pos hguard]
    simp only [Bool.and_eq_true, bne_iff_ne] at hguard
    exact ⟨(after_failed hguard.1.2 hguard.2 _ _).symm, h⟩
  · rw [if_neg hguard]
    simp only [Bool.and_eq_true, bne_iff_ne, not_and_or, not_not] at hguard
    have hfailed : s.isFailed = true → stmt = .commit ∨ stmt = .rollback := by
      intro hs
      obtain (hn | hc) | hr := hguard
      · exact absurd hs hn
      · exact .inl hc
      · exact .inr hr
    have hrun : Follows s stmt (s.runStmt known env stmt) := follows_runStmt h hfailed hq
    generalize s.runStmt known env stmt = out at hrun
    obtain ⟨reply, s'⟩ := out
    cases reply with
    | ok => exact hrun
    | error => exact ⟨(view_fail s').trans hrun.view, settled_fail hrun.settled⟩

end

/-- The session holds what its replies say. -/
structure Inv (W : World) : Prop where
  account : W.account = W.sess.view
  settled : W.sess.Settled

theorem inv_step {known : String → Bool} (W : World) (a : Act) (W' : World) (h : Inv W)
    (hq : quiet W a = true) (hstep : step known W a = some W') : Inv W' := by
  cases a with
  | stmt stmt env =>
    have hquiet : stmt = .commit ∨ stmt = .rollback → W.sess.hasXid = true → env.fails = true →
        unstaged W.sess.guc = true := by
      intro hstmt hxid hfails
      obtain rfl | rfl := hstmt
      · simpa [quiet, hxid, hfails] using hq
      · simpa [quiet, hxid, hfails] using hq
    have hrun : Follows W.sess stmt (W.sess.runOne known env stmt) :=
      follows_runOne h.settled hquiet
    rw [step] at hstep
    generalize W.sess.runOne known env stmt = out at hrun hstep
    cases hstep
    refine ⟨?_, hrun.settled⟩
    rw [hrun.view, h.account]
  | release committed =>
    cases hstep
    have hun : unstaged W.sess.guc = true := hq
    refine ⟨?_, fun _ => hun⟩
    have hguc := guc_eq_of_unstaged hun
    rw [h.account, Sess.release, Sess.view, Sess.view, hguc]
    cases W.sess.txn <;> cases committed <;> rfl

/-- Settings are transactional in every run whose blocks that end by a release, or without their
record, made no setting: the session shows at every point what its replies say, which outside a
block is the value established last. -/
theorem settings_transactional (known : String → Bool) (acts : List Act) (W : World)
    (hquiet : Runs.Along (step known) (fun W a => quiet W a = true) .new acts)
    (hrun : Runs.exec (step known) .new acts = some W) : W.sess.guc.effective = W.account.shown ∧
      (W.sess.txn = .idle → W.sess.guc.effective = W.account.value) := by
  have hinv : Inv W := Runs.exec_invariant inv_step ⟨rfl, fun _ => rfl⟩ hquiet hrun
  have hshown : W.sess.guc.effective = W.account.shown := by
    rw [hinv.account, shown_view hinv.settled]
  refine ⟨hshown, fun hidle => ?_⟩
  rw [hshown, hinv.account, Sess.view, hidle]
  rfl

def somezones (zone : String) : Bool := zone == "Europe/Paris"

def paris (isLocal : Bool) : List Act :=
  [.stmt .begin ⟨false, false⟩, .stmt .other ⟨false, true⟩,
    .stmt (.set isLocal "timezone" (.value "Europe/Paris")) ⟨false, false⟩]

theorem settings_transactional_rollback : ∃ W, Runs.exec (step somezones) .new
        (paris false ++ [.stmt .other ⟨true, false⟩, .stmt .commit ⟨false, false⟩]) = some W ∧
      W.sess.txn = .idle ∧ W.sess.guc.effective = "UTC" := by
  refine ⟨_, rfl, rfl, ?_⟩
  have hrun := settings_transactional somezones
    (paris false ++ [.stmt .other ⟨true, false⟩, .stmt .commit ⟨false, false⟩]) _
    (Runs.along_of_check quiet (fun _ _ h => h) rfl) rfl
  exact hrun.2 rfl

/-- The record of a COMMIT is not written: the block's SET stays in effect, and the next COMMIT
makes it permanent. The record of a ROLLBACK is not written: the block's SET LOCAL stays in
effect. -/
theorem uncommitted_set_survives : (∃ W, Runs.exec (step somezones) .new
        (paris false ++ [.stmt .commit ⟨true, false⟩]) = some W ∧
      W.sess.txn = .idle ∧ W.account.value = "UTC" ∧ W.sess.guc.effective = "Europe/Paris") ∧
    (∃ W, Runs.exec (step somezones) .new
        (paris false ++ [.stmt .commit ⟨true, false⟩, .stmt .begin ⟨false, false⟩,
          .stmt .commit ⟨false, false⟩]) = some W ∧
      W.account.value = "UTC" ∧ W.sess.guc.committed = "Europe/Paris") ∧
    ∃ W, Runs.exec (step somezones) .new
        (paris true ++ [.stmt .rollback ⟨true, false⟩]) = some W ∧
      W.sess.txn = .idle ∧ W.account.value = "UTC" ∧ W.sess.guc.effective = "Europe/Paris" :=
  ⟨⟨_, rfl, rfl, rfl, rfl⟩, ⟨_, rfl, rfl, rfl⟩, ⟨_, rfl, rfl, rfl, rfl⟩⟩

end Crabgresql.Settings
