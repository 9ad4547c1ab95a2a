import Crabgresql.Lib.Runs
import Crabgresql.Wire.Messages

/-!
# The message loop of a session

One connection after startup: the prepared statements and portals of the
extended protocol, the flag that makes the loop skip messages after an error, and
the engine session behind it. The engine is any implementation of the calls the
loop makes. A cancel request can end an execution before or while the engine
runs. The connection records the calls it made and everything it sent.
-/

namespace Crabgresql.Wire

inductive TxStatus
  | idle
  | inTransaction
  | failed
  deriving DecidableEq

structure FieldDescription where
  name : String
  tableOid : ℕ
  columnId : ℤ
  typeOid : ℕ
  typeSize : ℤ
  typeModifier : ℤ
  /-- 0 is text, 1 is binary. -/
  format : ℤ
  deriving DecidableEq

structure Cell where
  text : Bytes
  binary : Bytes
  deriving DecidableEq

inductive QueryResult
  | rows (fields : List FieldDescription) (rows : List (List (Option Cell))) (tag : String)
  | command (tag : String)
  | empty
  deriving DecidableEq

inductive BackendMessage
  | rowDescription (fields : List FieldDescription)
  | parameterDescription (types : List ℤ)
  | dataRow (values : List (Option Bytes))
  | commandComplete (tag : String)
  | emptyQueryResponse
  | parseComplete
  | bindComplete
  | closeComplete
  | noData
  | errorResponse (e : PgError)
  | readyForQuery (status : TxStatus)
  deriving DecidableEq

/-- The engine session behind a connection. -/
structure EngineSession (σ : Type) where
  describe : σ → String → Except PgError (List FieldDescription) × σ
  simpleQuery : σ → String → Except PgError (List QueryResult) × σ
  /-- The session after an execution that was dropped under way. -/
  dropped : σ → String → σ
  txStatus : σ → TxStatus

inductive EngineCall
  | describe (sql : String)
  | simpleQuery (sql : String)
  deriving DecidableEq

/-- Whether and when a cancel request reaches an execution. -/
inductive Cancel
  | never
  | before
  | during
  deriving DecidableEq

structure Prepared where
  sql : String
  paramTypes : List ℤ
  fields : List FieldDescription

structure Portal where
  sql : String
  fields : List FieldDescription
  /-- One resolved format code per column. -/
  formats : List ℤ

structure Connection (σ : Type) where
  session : σ
  statements : String → Option Prepared
  portals : String → Option Portal
  /-- Set after an error in the extended phase: skip messages until Sync. -/
  failed : Bool
  closed : Bool
  calls : List EngineCall
  sent : List BackendMessage

variable {σ : Type}
variable {i : Input}

def Connection.send (c : Connection σ) (out : List BackendMessage) : Connection σ :=
  { c with sent := c.sent ++ out }

def Connection.called (c : Connection σ) (call : EngineCall) (s : σ) : Connection σ :=
  { c with calls := c.calls ++ [call], session := s }

def queryCanceled : PgError := .ofCode "57014" "canceling statement due to user request"

def failExtended (c : Connection σ) (e : PgError) : Connection σ :=
  { c with failed := true }.send [.errorResponse e]

def resolveFormats (requested : List ℤ) (ncols : ℕ) : Except PgError (List ℤ) :=
  let validate (code : ℤ) : Except PgError ℤ :=
    if code = 0 ∨ code = 1 then .ok code else .error (.protocol s!"invalid format code {code}")
  match requested with
  | [] => .ok (List.replicate ncols 0)
  | [code] => (validate code).map (List.replicate ncols)
  | _ =>
    let n := requested.length
    if n = ncols then requested.mapM validate
    else .error (.protocol
      s!"bind message has {n} result formats but query has {ncols} columns")

/-- The state after the handler's calls, and its response or error. -/
abbrev Handled (σ : Type) := Connection σ × Except PgError (List BackendMessage)

def handleParse (E : EngineSession σ) (c : Connection σ) (name sql : String)
    (paramTypes : List ℤ) : Handled σ :=
  if name ≠ "" ∧ (c.statements name).isSome then
    (c, .error (.ofCode "42P05" s!"prepared statement \"{name}\" already exists"))
  else
    let r := E.describe c.session sql
    let c := c.called (.describe sql) r.2
    match r.1 with
    | .error e => (c, .error e)
    | .ok fields =>
      ({ c with statements := Function.update c.statements name (some ⟨sql, paramTypes, fields⟩) },
        .ok [.parseComplete])

def handleBind (c : Connection σ) (portal statement : String) (resultFormats : List ℤ) :
    Handled σ :=
  match c.statements statement with
  | none => (c, .error (.ofCode "26000" s!"prepared statement \"{statement}\" does not exist"))
  | some prepared =>
    if portal ≠ "" ∧ (c.portals portal).isSome then
      (c, .error (.ofCode "42P03" s!"cursor \"{portal}\" already exists"))
    else
      match resolveFormats resultFormats prepared.fields.length with
      | .error e => (c, .error e)
      | .ok formats =>
        ({ c with
            portals := Function.update c.portals portal
              (some ⟨prepared.sql, prepared.fields, formats⟩) },
          .ok [.bindComplete])

def handleDescribe (c : Connection σ) (kind : UInt8) (name : String) : Handled σ :=
  if kind = 83 then                        -- S
    match c.statements name with
    | none => (c, .error (.ofCode "26000" s!"prepared statement \"{name}\" does not exist"))
    | some prepared =>
      (c, .ok [.parameterDescription prepared.paramTypes,
        if prepared.fields.isEmpty then .noData else .rowDescription prepared.fields])
  else if kind = 80 then                   -- P
    match c.portals name with
    | none => (c, .error (.ofCode "34000" s!"portal \"{name}\" does not exist"))
    | some portal =>
      -- the portal reports the formats it will use
      (c, .ok [if portal.fields.isEmpty then .noData else
        .rowDescription ((portal.fields.zip portal.formats).map fun p =>
          { p.1 with format := p.2 })])
  else
    let shown := charDebug kind
    (c, .error (.protocol s!"invalid describe kind {shown}"))

/-- The rows of an execution in the portal's formats. -/
def executeResponse (formats : List ℤ) : Option QueryResult → List BackendMessage
  | some (.rows _ rows tag) =>
    (rows.map fun row => .dataRow ((row.zip formats).map fun p =>
      p.1.map fun cell => if p.2 = 1 then cell.binary else cell.text)) ++ [.commandComplete tag]
  | some (.command tag) => [.commandComplete tag]
  | some .empty => [.emptyQueryResponse]
  | none => [.emptyQueryResponse]

/-- Run the engine unless a cancel comes first, or while it runs. -/
def runQuery (E : EngineSession σ) (c : Connection σ) (sql : String) :
    Cancel → Connection σ × Except PgError (List QueryResult)
  | .before => (c, .error queryCanceled)
  | .during => (c.called (.simpleQuery sql) (E.dropped c.session sql), .error queryCanceled)
  | .never =>
    let r := E.simpleQuery c.session sql
    (c.called (.simpleQuery sql) r.2, r.1)

def handleExecute (E : EngineSession σ) (c : Connection σ) (portal : String) (cancel : Cancel) :
    Handled σ :=
  match c.portals portal with
  | none => (c, .error (.ofCode "34000" s!"portal \"{portal}\" does not exist"))
  | some p =>
    let r := runQuery E c p.sql cancel
    (r.1, r.2.map fun results => executeResponse p.formats results.head?)

def handleClose (c : Connection σ) (kind : UInt8) (name : String) : Handled σ :=
  if kind = 83 then
    ({ c with statements := Function.update c.statements name none }, .ok [.closeComplete])
  else if kind = 80 then
    ({ c with portals := Function.update c.portals name none }, .ok [.closeComplete])
  else
    let shown := charDebug kind
    (c, .error (.protocol s!"invalid close kind {shown}"))

def handle (E : EngineSession σ) (c : Connection σ) (cancel : Cancel) :
    FrontendMessage → Option (Handled σ)
  | .parse name sql paramTypes => some (handleParse E c name sql paramTypes)
  | .bind portal statement _ _ resultFormats =>
    some (handleBind c portal statement resultFormats)
  | .describe kind name => some (handleDescribe c kind name)
  | .execute portal _ => some (handleExecute E c portal cancel)
  | .close kind name => some (handleClose c kind name)
  | .query _ | .password _ | .sync | .flush | .terminate => none

/-- Results in text format, as the simple protocol sends them. -/
def writeResults (results : List QueryResult) : List BackendMessage :=
  results.flatMap fun
    | .rows fields rows tag =>
      .rowDescription fields :: (rows.map fun row => .dataRow (row.map fun c => c.map Cell.text)) ++
        [.commandComplete tag]
    | .command tag => [.commandComplete tag]
    | .empty => [.emptyQueryResponse]

def handleQuery (E : EngineSession σ) (c : Connection σ) (sql : String) (cancel : Cancel) :
    Connection σ :=
  let r := runQuery E c sql cancel
  match r.2 with
  | .ok results =>
    r.1.send (writeResults results ++ [.readyForQuery (E.txStatus r.1.session)])
  | .error e =>
    if e.severity = .fatal then { r.1.send [.errorResponse e] with closed := true }
    else r.1.send [.errorResponse e, .readyForQuery (E.txStatus r.1.session)]

def unexpectedPassword : PgError := .protocol "unexpected password message outside authentication"

structure Input where
  message : FrontendMessage
  cancel : Cancel

/-- One turn of the message loop; a closed connection reads no more. -/
def Connection.step (E : EngineSession σ) (c : Connection σ) (i : Input) : Option (Connection σ) :=
  if c.closed then none
  else
    match i.message with
    | .terminate => some { c with closed := true }
    | .query sql => some (handleQuery E c sql i.cancel)
    | .sync =>
      some ({ c with failed := false, portals := fun _ => none }.send
        [.readyForQuery (E.txStatus c.session)])
    | .flush => some c
    | .password _ =>
      some { c.send [.errorResponse unexpectedPassword] with closed := true }
    | msg =>
      -- the arms of the extended protocol all skip while the flag is set
      if c.failed then some c
      else
        (handle E c i.cancel msg).map fun r =>
          match r.2 with
          | .ok out => r.1.send out
          | .error e => failExtended r.1 e

def Extended : FrontendMessage → Bool
  | .parse .. | .bind .. | .describe .. | .execute .. | .close .. => true
  | .query _ | .password _ | .sync | .flush | .terminate => false

/-- A message that the loop does not skip: a simple query or a stray password. -/
def Unskipped : FrontendMessage → Bool
  | .query _ | .password _ => true
  | .parse .. | .bind .. | .describe .. | .execute .. | .close .. | .sync | .flush
  | .terminate => false

/-- Everything a message could change but the end of the connection. -/
structure Untouched (c d : Connection σ) : Prop where
  session : d.session = c.session
  statements : d.statements = c.statements
  portals : d.portals = c.portals
  failed : d.failed = c.failed
  calls : d.calls = c.calls
  sent : d.sent = c.sent

theorem Untouched.refl (c : Connection σ) : Untouched c c := ⟨rfl, rfl, rfl, rfl, rfl, rfl⟩

variable {c d : Connection σ} {E : EngineSession σ}

theorem Untouched.trans {a b : Connection σ} (h : Untouched a b) (h' : Untouched b c) :
    Untouched a c :=
  ⟨h'.session.trans h.session, h'.statements.trans h.statements, h'.portals.trans h.portals,
    h'.failed.trans h.failed, h'.calls.trans h.calls, h'.sent.trans h.sent⟩

theorem open_of_step (h : c.step E i = some d) : c.closed = false := by
  cases hc : c.closed with
  | false => rfl
  | true =>
    rw [Connection.step, hc] at h
    cases h

theorem step_extended (hext : Extended i.message = true) (hclosed : c.closed = false) :
    c.step E i = if c.failed then some c else
      (handle E c i.cancel i.message).map fun r =>
        match r.2 with
        | .ok out => r.1.send out
        | .error e => failExtended r.1 e := by
  obtain ⟨message, cancel⟩ := i
  simp only [Connection.step, hclosed, Bool.false_eq_true, if_false]
  cases message with
  | query | password | sync | flush | terminate => cases hext
  | _ => rfl

theorem step_skips (hfailed : c.failed = true)
    (hsync : i.message ≠ .sync) (hskip : Unskipped i.message = false) (h : c.step E i = some d) : Untouched c d := by
  have hclosed := open_of_step h
  by_cases hext : Extended i.message = true
  · rw [step_extended hext hclosed, if_pos hfailed] at h
    cases h
    exact .refl _
  · obtain ⟨message, cancel⟩ := i
    simp only [Connection.step, hclosed, Bool.false_eq_true, if_false] at h
    cases message with
    | query | password => cases hskip
    | sync => exact absurd rfl hsync
    | flush =>
      cases h
      exact .refl _
    | terminate =>
      cases h
      exact ⟨rfl, rfl, rfl, rfl, rfl, rfl⟩
    | _ => exact absurd rfl hext

theorem exec_skips {is : List Input} (hfailed : c.failed = true)
    (his : ∀ i ∈ is, i.message ≠ .sync ∧ Unskipped i.message = false)
    (h : Runs.exec (Connection.step E) c is = some d) : Untouched c d := by
  induction is generalizing c with
  | nil =>
    cases h
    exact .refl _
  | cons i is ih =>
    obtain ⟨c', hstep, hrest⟩ := Runs.exec_cons.mp h
    obtain ⟨hsync, hskip⟩ := his i List.mem_cons_self
    have hone := step_skips hfailed hsync hskip hstep
    exact hone.trans (ih (hone.failed.trans hfailed) (fun j hj => his j (List.mem_cons_of_mem _ hj))
      hrest)

/-- A handler sends nothing and sets no flag itself, and one that fails has added or removed no
statement and no portal. -/
structure Handles (c : Connection σ) (r : Handled σ) : Prop where
  failed : r.1.failed = c.failed
  sent : r.1.sent = c.sent
  statements : ∀ e, r.2 = .error e → r.1.statements = c.statements
  portals : ∀ e, r.2 = .error e → r.1.portals = c.portals

theorem handles_parse (E : EngineSession σ) (c : Connection σ) (name sql : String)
    (paramTypes : List ℤ) : Handles c (handleParse E c name sql paramTypes) := by
  unfold handleParse
  split_ifs
  · exact ⟨rfl, rfl, fun _ _ => rfl, fun _ _ => rfl⟩
  · cases hdesc : (E.describe c.session sql).1 with
    | error => simp only [hdesc]; exact ⟨rfl, rfl, fun _ _ => rfl, fun _ _ => rfl⟩
    | ok => simp only [hdesc]; exact ⟨rfl, rfl, nofun, nofun⟩

theorem handles_bind (c : Connection σ) (portal statement : String) (formats : List ℤ) :
    Handles c (handleBind c portal statement formats) := by
  unfold handleBind
  split
  · exact ⟨rfl, rfl, fun _ _ => rfl, fun _ _ => rfl⟩
  · split_ifs
    · exact ⟨rfl, rfl, fun _ _ => rfl, fun _ _ => rfl⟩
    · split
      · exact ⟨rfl, rfl, fun _ _ => rfl, fun _ _ => rfl⟩
      · exact ⟨rfl, rfl, nofun, nofun⟩

theorem handles_same (c : Connection σ) (out : Except PgError (List BackendMessage)) :
    Handles c (c, out) :=
  ⟨rfl, rfl, fun _ _ => rfl, fun _ _ => rfl⟩

theorem handles_describe (c : Connection σ) (kind : UInt8) (name : String) :
    Handles c (handleDescribe c kind name) := by
  unfold handleDescribe
  split_ifs
  · split <;> exact handles_same c _
  · split <;> exact handles_same c _
  · exact handles_same c _

theorem handles_execute (E : EngineSession σ) (c : Connection σ) (portal : String)
    (cancel : Cancel) : Handles c (handleExecute E c portal cancel) := by
  unfold handleExecute
  split
  · exact handles_same c _
  · cases cancel <;> exact ⟨rfl, rfl, fun _ _ => rfl, fun _ _ => rfl⟩

theorem handles_close (c : Connection σ) (kind : UInt8) (name : String) :
    Handles c (handleClose c kind name) := by
  unfold handleClose
  split_ifs
  · exact ⟨rfl, rfl, nofun, nofun⟩
  · exact ⟨rfl, rfl, nofun, nofun⟩
  · exact handles_same c _

theorem handles_handle {cancel : Cancel}
    {m : FrontendMessage} {r : Handled σ} (h : handle E c cancel m = some r) : Handles c r := by
  cases m with
  | parse name sql types =>
    cases h
    exact handles_parse E c name sql types
  | bind portal statement _ _ formats =>
    cases h
    exact handles_bind c portal statement formats
  | describe kind name =>
    cases h
    exact handles_describe c kind name
  | execute portal =>
    cases h
    exact handles_execute E c portal cancel
  | close kind name =>
    cases h
    exact handles_close c kind name
  | _ => cases h

theorem step_fails (hext : Extended i.message = true)
    (hbefore : c.failed = false) (hafter : d.failed = true) (h : c.step E i = some d) :
    ∃ e, d.sent = c.sent ++ [.errorResponse e] ∧ d.statements = c.statements ∧
      d.portals = c.portals := by
  have hclosed := open_of_step h
  rw [step_extended hext hclosed, hbefore, if_neg Bool.false_ne_true] at h
  obtain ⟨r, hr, rfl⟩ := Option.map_eq_some_iff.mp h
  have hhandles := handles_handle hr
  cases hout : r.2 with
  | ok out =>
    simp only [hout] at hafter
    have hflag : (r.1.send out).failed = false := hhandles.failed.trans hbefore
    rw [hflag] at hafter
    cases hafter
  | error e =>
    refine ⟨e, ?_, hhandles.statements e hout, hhandles.portals e hout⟩
    change r.1.sent ++ _ = _
    rw [hhandles.sent]

theorem step_sync (hi : i.message = .sync) (h : c.step E i = some d) :
    d.sent = c.sent ++ [.readyForQuery (E.txStatus c.session)] ∧ d.failed = false := by
  obtain ⟨message, cancel⟩ := i
  cases hi
  simp only [Connection.step] at h
  split_ifs at h
  cases h
  exact ⟨rfl, rfl⟩

/-- After an error in a message of the extended protocol, in every run of messages before the next
Sync of which none is a simple query or a password, nothing happens: no engine call, no statement
or portal added or removed, nothing sent but the one error; and the next ReadyForQuery is that of
the Sync. -/
theorem skips_until_sync {E : EngineSession σ} {c c₁ c₂ : Connection σ} {i : Input}
    {is : List Input} (hext : Extended i.message = true) (hbefore : c.failed = false)
    (hstep : c.step E i = some c₁) (hafter : c₁.failed = true)
    (his : ∀ j ∈ is, j.message ≠ .sync) (hskip : ∀ j ∈ is, Unskipped j.message = false)
    (hrun : Runs.exec (Connection.step E) c₁ is = some c₂) :
    (∃ e, c₂.sent = c.sent ++ [.errorResponse e]) ∧ c₂.calls = c₁.calls ∧
      c₂.session = c₁.session ∧ c₂.statements = c.statements ∧ c₂.portals = c.portals ∧
      ∀ cancel c₃, c₂.step E ⟨.sync, cancel⟩ = some c₃ →
        c₃.sent = c₂.sent ++ [.readyForQuery (E.txStatus c₂.session)] ∧ c₃.failed = false := by
  obtain ⟨e, hsent, hstatements, hportals⟩ := step_fails hext hbefore hafter hstep
  have hquiet := exec_skips hafter (fun j hj => ⟨his j hj, hskip j hj⟩) hrun
  refine ⟨⟨e, hquiet.sent.trans hsent⟩, hquiet.calls, hquiet.session,
    hquiet.statements.trans hstatements, hquiet.portals.trans hportals, ?_⟩
  intro cancel c₃ hsync
  exact step_sync rfl hsync

/-- An engine that counts the statements it has executed and cannot describe an empty one. -/
def countingEngine : EngineSession ℕ where
  describe n sql := (if sql = "" then .error (.ofCode "42601" "empty") else .ok [], n)
  simpleQuery n _ := (.ok [.command "INSERT 0 1"], n + 1)
  dropped n _ := n
  txStatus _ := .idle

def Connection.start (s : σ) : Connection σ :=
  ⟨s, fun _ => none, fun _ => none, false, false, [], []⟩

/-- A Parse that fails, and then a simple query before any Sync: the query runs, and its answer
and a ReadyForQuery go out. -/
theorem query_runs_before_sync : ∃ c₁ c₂ : Connection ℕ,
      (Connection.start 0).step countingEngine ⟨.parse "" "" [], .never⟩ = some c₁ ∧
      c₁.failed = true ∧
      c₁.step countingEngine ⟨.query "INSERT", .never⟩ = some c₂ ∧ c₂.failed = true ∧
      c₁.session = 0 ∧ c₂.session = 1 ∧
      c₂.sent = c₁.sent ++ [.commandComplete "INSERT 0 1", .readyForQuery .idle] :=
  ⟨_, _, rfl, rfl, rfl, rfl, rfl, rfl, rfl⟩

theorem skips_until_sync_batch : ∃ c₁ c₂ : Connection ℕ,
      (Connection.start 0).step countingEngine ⟨.parse "" "" [], .never⟩ = some c₁ ∧
      Runs.exec (Connection.step countingEngine) c₁
        [⟨.bind "" "" [] [] [], .never⟩, ⟨.execute "" 0, .never⟩] = some c₂ ∧
      c₂.calls = c₁.calls ∧ c₂.session = c₁.session := by
  refine ⟨_, _, rfl, rfl, ?_⟩
  have hskips := @skips_until_sync ℕ countingEngine (Connection.start 0) _ _
    ⟨.parse "" "" [], .never⟩ [⟨.bind "" "" [] [] [], .never⟩, ⟨.execute "" 0, .never⟩]
    rfl rfl rfl rfl (by decide) (by decide) rfl
  exact ⟨hskips.2.1, hskips.2.2.1⟩

/-! ## One ReadyForQuery per request -/

def isReady : BackendMessage → Bool
  | .readyForQuery _ => true
  | _ => false

/-- Simple queries and Syncs ask for a ReadyForQuery. -/
def Input.asksReady (i : Input) : Bool := i.message matches .query _ | .sync

theorem countP_ready_results (formats : List ℤ) (results : List QueryResult) :
    (executeResponse formats results.head?).countP isReady = 0 ∧
      (writeResults results).countP isReady = 0 := by
  constructor
  · unfold executeResponse
    split <;> simp [List.countP_append, List.countP_eq_zero, isReady]
  · rw [writeResults, List.countP_flatMap, List.sum_eq_zero_iff]
    intro n hn
    obtain ⟨r, -, rfl⟩ := List.mem_map.mp hn
    cases r <;> simp [List.countP_append, List.countP_eq_zero, isReady]

theorem countP_ready_handle {cancel : Cancel} {m : FrontendMessage} {r : Handled σ}
    (h : handle E c cancel m = some r) {out : List BackendMessage} (hout : r.2 = .ok out) :
    out.countP isReady = 0 := by
  cases m with
  | parse | bind | describe | close =>
    cases h
    simp only [handleParse, handleBind, handleDescribe, handleClose] at hout
    repeat' split at hout
    all_goals cases hout
    all_goals rfl
  | execute portal =>
    cases h
    simp only [handleExecute] at hout
    split at hout
    · cases hout
    · cases hrun : (runQuery E c _ cancel).2 with
      | error => rw [hrun] at hout; cases hout
      | ok results =>
        rw [hrun] at hout
        cases hout
        exact (countP_ready_results _ results).1
  | _ => cases h

/-- From `c` to `d`, `n` ReadyForQuery were asked for and sent; one of them may be missing from a
connection that was closed. -/
def Readied (c d : Connection σ) (n : ℕ) : Prop :=
  d.sent.countP isReady = c.sent.countP isReady + n ∨
    d.closed = true ∧ d.sent.countP isReady + 1 = c.sent.countP isReady + n

theorem readied_step (h : c.step E i = some d) : Readied c d (if i.asksReady then 1 else 0) := by
  have hclosed := open_of_step h
  obtain ⟨message, cancel⟩ := i
  simp only [Connection.step, hclosed, Bool.false_eq_true, if_false] at h
  cases message with
  | query sql =>
    have hsent : (runQuery E c sql cancel).1.sent = c.sent := by cases cancel <;> rfl
    cases h
    simp only [handleQuery]
    split
    · refine .inl ?_
      simp only [Connection.send, hsent, List.countP_append, (countP_ready_results [] _).2]
      rfl
    · split <;> simp [Readied, Connection.send, hsent, isReady, Input.asksReady]
  | sync | password =>
    cases h
    exact .inl (List.countP_append ..)
  | flush | terminate =>
    cases h
    exact .inl rfl
  | parse | bind | describe | execute | close =>
    dsimp only at h
    split at h
    · cases h
      exact .inl rfl
    · obtain ⟨r, hr, rfl⟩ := Option.map_eq_some_iff.mp h
      refine .inl ?_
      rw [← (handles_handle hr).sent]
      cases hout : r.2 with
      | ok => exact List.countP_append.trans (congrArg _ (countP_ready_handle hr hout))
      | error => exact List.countP_append

/-- In every run of the message loop, with any engine and any cancel requests, as many ReadyForQuery
are sent as simple queries and Syncs were read, but for one if the connection was closed. -/
theorem ready_per_request (is : List Input) (h : Runs.exec (Connection.step E) c is = some d) :
    Readied c d (is.countP Input.asksReady) := by
  induction is generalizing c with
  | nil =>
    cases h
    exact .inl rfl
  | cons i is ih =>
    obtain ⟨c', hstep, hrest⟩ := Runs.exec_cons.mp h
    have hone := readied_step hstep
    rw [List.countP_cons]
    cases is with
    | nil =>
      cases hrest
      simpa using hone
    | cons j js =>
      -- a connection that goes on was not closed
      obtain ⟨_, hj, -⟩ := Runs.exec_cons.mp hrest
      simp only [Readied, open_of_step hj, Bool.false_eq_true, false_and, or_false] at hone
      obtain hmore | ⟨hclosed, hmore⟩ := ih hrest
      · exact .inl (by omega)
      · exact .inr ⟨hclosed, by omega⟩

def refusedParse : List Input :=
  [⟨.parse "" "" [], .never⟩, ⟨.query "INSERT", .during⟩, ⟨.sync, .never⟩]

theorem ready_per_request_batch :
    ∃ d, Runs.exec (Connection.step countingEngine) (.start 0) refusedParse = some d ∧
      Readied (.start 0) d 2 :=
  ⟨_, rfl, ready_per_request (E := countingEngine) refusedParse rfl⟩

end Crabgresql.Wire
