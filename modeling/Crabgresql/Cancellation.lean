import Crabgresql.Lib.Runs
import Crabgresql.Owners

/-!
# Cancelled statements

A cancel request drops the future of a statement at one of its await points and
the connection goes on with the same session. What the statement kept in local
variables is gone; the transaction state of the session stays as it is. A batch
that was handed to the committer may still be committed.
-/

namespace Crabgresql.Cancellation

open Option Runs

open Mvcc Kv Procarray Lockmgr Exec Session Engine Cluster

variable {Row : Type}
variable {s : SessionId}

structure Server (Row : Type) where
  engine : SqlEngine Row
  /-- Batches whose statements were cancelled while the commit was under way. -/
  late : List (Batch Row)
  /-- The session is in a block in which a statement was cancelled. No step reads it. -/
  cancelled : SessionId → Bool

inductive Event (Row : Type)
  | call (glob : GlobalView) (epoch : ℕ) (s : SessionId) (a : Act Row)
  | cancel (s : SessionId)
  | land (i : ℕ)

/-- The await points of a statement. At `ready` it waits for a read barrier, before it has taken
an xid of its own; a write in a block waits for the barrier of range 0 after it has one. -/
def awaiting (e : SqlEngine Row) (s : SessionId) : Bool :=
  match (e.sessions s).pc with
  | .ready => true
  | .starting w _ autocommit => !autocommit && w.isWrite
  | .acquiring f _ => (e.lm.waitFor[f.xid]?).isSome
  | .committing _ _ _ => true
  | _ => false

def inFlight : Pc Row → List (Batch Row)
  | .committing b _ _ => [b]
  | _ => []

def interrupt (e : SqlEngine Row) (s : SessionId) : SqlEngine Row :=
  e.set s ((e.view s).setPc .ready)

def TxnState.isOpen : TxnState → Bool
  | .idle => false
  | .inTransaction _ | .failed _ => true

namespace Server

def boot (kv : Store Row) : Server Row := ⟨.boot kv, [], fun _ => false⟩

def step (cfg : Config) (S : Server Row) : Event Row → Option (Server Row)
  | .call glob epoch s a =>
    (S.engine.step ⟨cfg, glob, epoch⟩ s a).map fun e =>
      { S with
        engine := e
        cancelled := fun s' => S.cancelled s' && TxnState.isOpen (e.sessions s').txn }
  | .cancel s =>
    if awaiting S.engine s then
      some
        { engine := interrupt S.engine s
          late := S.late ++ inFlight (S.engine.sessions s).pc
          cancelled :=
            Function.update S.cancelled s (TxnState.isOpen (S.engine.sessions s).txn) }
    else none
  | .land i =>
    S.late[i]?.map fun b =>
      { S with
        engine := { S.engine with kv := commitBatch cfg.mode S.engine.kv b.ops }
        late := S.late.eraseIdx i }

end Server

/-- The session answers for `x`: its transaction state has it, or it executes a statement of it. -/
def Answers (u : Sess Row) (x : Xid) : Prop :=
  u.txn.localXid = some x ∨ u.pc ≠ .ready ∧ holding u = some x

def Kept (S : Server Row) : Event Row → Prop
  | .cancel s => activeXid (S.engine.sessions s) = (S.engine.sessions s).txn.localXid
  | _ => True

/-- No statement is cancelled in a block that has not failed. -/
def OutsideBlocks (S : Server Row) : Event Row → Prop
  | .cancel s => ∀ c, (S.engine.sessions s).txn ≠ .inTransaction c
  | _ => True

theorem answers_of_holding {u : Sess Row} {x : Xid} (h : holding u = some x) : Answers u x := by
  by_cases hpc : u.pc = .ready
  · exact .inl ((holding_ready hpc).symm.trans h)
  · exact .inr ⟨hpc, h⟩

section Steps

variable {cfg : Config} {S S' : Server Row} {ev : Event Row}

theorem owned_interrupt (h : Owned S.engine) (hawait : awaiting S.engine s = true)
    (hkept : activeXid (S.engine.sessions s) = (S.engine.sessions s).txn.localXid) :
    Owned (interrupt S.engine s) := by
  refine h.set trivial (.quiet rfl rfl hkept.symm ?_)
  change (S.engine.sessions s).txn.localXid = holding (S.engine.sessions s)
  rw [← hkept]
  unfold holding
  split
  · rename_i x ack hpc
    unfold awaiting at hawait
    rw [hpc] at hawait
    cases hawait
  · rfl

theorem owned_step (h : Owned S.engine) (hok : Kept S ev) (hs : S.step cfg ev = some S') :
    Owned S'.engine := by
  cases ev with
  | call glob epoch s =>
    obtain ⟨e, he, rfl⟩ := map_eq_some_iff.mp hs
    obtain ⟨v, hv, rfl⟩ := map_eq_some_iff.mp he
    obtain ⟨hc, hhandles⟩ := step_handles (v := S.engine.view s) (h.coherent s) hv
    exact h.set hc hhandles
  | cancel =>
    simp only [Server.step] at hs
    split_ifs at hs with hawait
    cases hs
    exact owned_interrupt h hawait hok
  | land =>
    obtain ⟨b, -, rfl⟩ := map_eq_some_iff.mp hs
    exact ⟨h.coherent, h.running, h.locks, h.below, h.sole⟩

theorem failed_step {env : Env} {v v' : View Row} {a : Act Row} {c : TxnCtx}
    (h : v.self.txn = .failed c) (hs : Session.step env v a = some v') :
    v'.self.txn = .failed c ∨ v'.self.txn = .idle := by
  by_cases hready : v.self.pc = .ready
  · obtain ⟨kv, pa, lm, seq, txn, gx, pc, err⟩ := v
    obtain rfl : txn = .failed c := h
    obtain rfl : pc = .ready := hready
    obtain ⟨_ | x, _, _, _, _⟩ := c <;> cases a <;> cases hs <;>
      first | exact .inl rfl | exact .inr rfl
  obtain ⟨w, hw, -, -, hself⟩ := step_replicated hs
  have htxn : w.self.stripped.txn = v'.self.stripped.txn := congrArg Sess.txn hself
  change w.self.txn = v'.self.txn at htxn
  rw [← htxn]
  cases step_move rfl hw with
  | still _ _ _ hpc | alloc _ _ _ hpc | commit _ _ hpc | abort _ _ _ hpc | leave hpc | drop _ hpc =>
    exact absurd hpc hready
  | read _ _ _ _ _ _ _ _ _ _ _ _ hread =>
    rcases hread with ⟨-, rfl⟩ | ⟨-, c', S, hc', -⟩
    · exact .inl h
    · rw [h] at hc'
      cases hc'
  | fail => exact .inl (by simp only [h, TxnState.fail])
  | stage _ _ _ _ _ _ _ hin =>
    rw [h] at hin
    cases hin
  | apply ok b epoch after =>
    cases after <;> cases ok <;> simp [Sess.returned, h, TxnState.fail]
  | _ => exact .inl h

def MarksFailed (S : Server Row) : Prop :=
  ∀ s, S.cancelled s = true → ∃ c, (S.engine.sessions s).txn = .failed c

theorem marksFailed_step (h : MarksFailed S) (hok : OutsideBlocks S ev)
    (hs : S.step cfg ev = some S') : MarksFailed S' := by
  cases ev with
  | call glob epoch s =>
    obtain ⟨e, he, rfl⟩ := map_eq_some_iff.mp hs
    obtain ⟨v, hv, rfl⟩ := map_eq_some_iff.mp he
    intro s' hmark
    obtain ⟨hold, hopen⟩ := (Bool.and_eq_true _ _).mp hmark
    obtain ⟨c, hc⟩ := h s' hold
    by_cases hs' : s' = s
    · subst hs'
      rw [sessions_set_same] at hopen
      change ∃ c, ((S.engine.set s' v).sessions s').txn = _
      rw [sessions_set_same]
      rcases failed_step (v := S.engine.view s') hc hv with hfail | hidle
      · exact ⟨c, hfail⟩
      · rw [hidle] at hopen
        cases hopen
    · change ∃ c, ((S.engine.set s v).sessions s').txn = _
      rw [sessions_set_ne hs']
      exact ⟨c, hc⟩
  | cancel s =>
    simp only [Server.step] at hs
    split_ifs at hs
    cases hs
    intro s' hmark
    change Function.update S.cancelled s _ s' = true at hmark
    change ∃ c, ((interrupt S.engine s).sessions s').txn = _
    unfold interrupt
    by_cases hs' : s' = s
    · subst hs'
      rw [Function.update_self] at hmark
      rw [sessions_set_same]
      change ∃ c, (S.engine.sessions s').txn = _
      cases htxn : (S.engine.sessions s').txn with
      | idle =>
        rw [htxn] at hmark
        cases hmark
      | inTransaction c => exact absurd htxn (hok c)
      | failed c => exact ⟨c, rfl⟩
    · rw [Function.update_of_ne hs'] at hmark
      rw [sessions_set_ne hs']
      exact h s' hmark
  | land =>
    obtain ⟨b, -, rfl⟩ := map_eq_some_iff.mp hs
    exact h

theorem commit_failed {env : Env} {v v' : View Row} {c : TxnCtx} (h : v.self.txn = .failed c)
    (hs : Session.step env v .commit = some v') : v'.self.pc = .ready ∨ ∃ x, c.xid = some x ∧
      v'.self.pc = .committing (.record x .aborted none) env.epoch (.close false) := by
  obtain ⟨kv, pa, lm, seq, txn, gx, pc, err⟩ := v
  obtain rfl : txn = .failed c := h
  cases pc <;> cases hs
  unfold View.abortCtx
  cases hx : c.xid with
  | none => exact .inl rfl
  | some x => exact .inr ⟨x, rfl, rfl⟩

end Steps

/-- In a run in which only statements without an xid of their own are cancelled, some session
answers for every running xid and every row lock. If moreover no statement is cancelled in a block
that has not failed, a block in which one was cancelled has failed, and its COMMIT commits
nothing. -/
theorem cancel_safe {cfg : Config} {kv : Store Row} {evs : List (Event Row)} {S : Server Row}
    (h : Runs.exec (Server.step cfg) (.boot kv) evs = some S)
    (hkept : Runs.Along (Server.step cfg) Kept (.boot kv) evs) :
    ((∀ x ∈ S.engine.pa.running, ∃ s, Answers (S.engine.sessions s) x) ∧
      ∀ k x, S.engine.lm.Holds k x → ∃ s, Answers (S.engine.sessions s) x) ∧
    (Runs.Along (Server.step cfg) OutsideBlocks (.boot kv) evs → ∀ s, S.cancelled s = true →
      ∃ c, (S.engine.sessions s).txn = .failed c ∧
        ∀ env v, Session.step env (S.engine.view s) .commit = some v → v.self.pc = .ready ∨
          ∃ x, c.xid = some x ∧
            v.self.pc = .committing (.record x .aborted none) env.epoch (.close false)) := by
  have howned : Owned S.engine :=
    exec_invariant (I := fun S : Server Row => Owned S.engine)
      (fun _ _ _ hI hok hs => owned_step hI hok hs) (owned_boot kv) hkept h
  refine ⟨⟨fun x hx => ?_, fun k x hx => ?_⟩, fun hout s hmark => ?_⟩
  · obtain ⟨s, hs⟩ := howned.running x hx
    exact ⟨s, answers_of_holding (holding_of_activeXid hs)⟩
  · obtain ⟨s, hs⟩ := howned.locks k x hx
    exact ⟨s, answers_of_holding hs⟩
  · have hmarks : MarksFailed S :=
      exec_invariant (fun _ _ _ hI hok hs => marksFailed_step hI hok hs)
        (fun s hs => by cases hs) hout h
    obtain ⟨c, hc⟩ := hmarks s hmark
    exact ⟨c, hc, fun env v hv => commit_failed (v := S.engine.view s) hc hv⟩

section Others

def Event.session : Event Row → Option SessionId
  | .call _ _ s _ | .cancel s => some s
  | .land _ => none

theorem sessions_step {cfg : Config} {S S' : Server Row} {ev : Event Row}
    (hne : ev.session ≠ some s) (hs : S.step cfg ev = some S') :
    S'.engine.sessions s = S.engine.sessions s := by
  cases ev with
  | call =>
    obtain ⟨e, he, rfl⟩ := map_eq_some_iff.mp hs
    obtain ⟨v, hv, rfl⟩ := map_eq_some_iff.mp he
    exact sessions_set_ne fun heq => hne (congrArg some heq.symm)
  | cancel =>
    simp only [Server.step] at hs
    split_ifs at hs
    cases hs
    exact sessions_set_ne fun heq => hne (congrArg some heq.symm)
  | land =>
    obtain ⟨b, -, rfl⟩ := map_eq_some_iff.mp hs
    rfl

theorem sessions_exec {cfg : Config} {S S' : Server Row} {evs : List (Event Row)}
    (hne : ∀ o ∈ evs.map Event.session, o ≠ some s) (h : exec (Server.step cfg) S evs = some S') :
    S'.engine.sessions s = S.engine.sessions s := by
  induction evs generalizing S with
  | nil =>
    cases h
    rfl
  | cons ev evs ih =>
    obtain ⟨U, hU, hrest⟩ := exec_cons.mp h
    rw [ih (fun o ho => hne o (List.mem_cons_of_mem _ ho)) hrest,
      sessions_step (hne _ List.mem_cons_self) hU]

end Others

section Runs

def replicated : Config := ⟨.replicated, false⟩

def calls (s : SessionId) (as : List (Act ℕ)) : List (Event ℕ) :=
  as.map fun a => .call .initial 1 s a

def seedRow : List (Event ℕ) :=
  calls 0 [.start (.insert 1 [.ok 10]), .takeSnapshot, .scan, .propose, .apply true, .finish,
    .release]

def updateStmt : List (Act ℕ) :=
  [.start (.update 1 (fun _ => .ok true) fun v => .ok (v + 1)), .takeSnapshot, .scan, .next,
    .acquire 0, .recheck, .propose]

/-- An autocommit UPDATE is cancelled while its commit is under way. -/
def cancelAutocommit : List (Event ℕ) := seedRow ++ calls 1 updateStmt ++ [.cancel 1]

/-- A read is cancelled in a block that has updated the row. -/
def cancelInBlock : List (Event ℕ) :=
  seedRow ++ calls 1 (.begin false :: updateStmt ++ [.apply true]) ++ [.cancel 1]

/-- A statement fails in a block, and another one is cancelled in it. -/
def cancelInFailed : List (Event ℕ) :=
  seedRow ++ calls 1 [.begin false, .start .invalid, .takeSnapshot, .scan] ++ [.cancel 1]

def atRest (u : Sess Row) : Bool :=
  match u with
  | ⟨.idle, _, .ready, _⟩ => true
  | _ => false

theorem not_answers_of_atRest {u : Sess Row} (h : atRest u = true) (x : Xid) : ¬ Answers u x := by
  unfold atRest at h
  split at h
  · rintro (hx | ⟨hpc, -⟩)
    · cases hx
    · exact hpc rfl
  · cases h

end Runs

/-- After the cancelled UPDATE all sessions are at rest, but its xid is running and it holds the
row. The block with the cancelled read is not failed, and its COMMIT is recorded. -/
theorem cancel_leaks :
    (∃ S : Server ℕ, Runs.exec (Server.step replicated) (.boot .empty) cancelAutocommit = some S ∧
      2 ∈ S.engine.pa.running ∧ S.engine.lm.Holds (1, 1) 2 ∧
      ∀ s, ¬ Answers (S.engine.sessions s) 2) ∧
    ∃ S S' : Server ℕ, Runs.exec (Server.step replicated) (.boot .empty) cancelInBlock = some S ∧
      S.cancelled 1 = true ∧ (∀ c, (S.engine.sessions 1).txn ≠ .failed c) ∧
      Runs.exec (Server.step replicated) S (calls 1 [.commit, .apply true]) = some S' ∧
      S'.engine.kv.clogGet 2 = .committed := by
  constructor
  · obtain ⟨S, hS, hrun, hlock, hrest₀, hrest₁⟩ :
        ∃ S ∈ exec (Server.step replicated) (.boot .empty) cancelAutocommit,
          2 ∈ S.engine.pa.running ∧ S.engine.lm.locks (1, 1) = some ⟨.exclusive, [2]⟩ ∧
          atRest (S.engine.sessions 0) = true ∧ atRest (S.engine.sessions 1) = true := by decide
    refine ⟨S, hS, hrun, ⟨_, hlock, List.mem_singleton_self 2⟩, fun s => ?_⟩
    have hsess : ∀ o ∈ cancelAutocommit.map Event.session, o = some 0 ∨ o = some 1 := by decide
    by_cases h₀ : s = 0
    · exact h₀ ▸ not_answers_of_atRest hrest₀ 2
    by_cases h₁ : s = 1
    · exact h₁ ▸ not_answers_of_atRest hrest₁ 2
    rw [sessions_exec (s := s) (fun o ho heq => ?_) hS]
    · exact not_answers_of_atRest rfl 2
    · subst heq
      rcases hsess _ ho with hs | hs
      · exact h₀ (Option.some.inj hs)
      · exact h₁ (Option.some.inj hs)
  · obtain ⟨S, hS, hmark, hopen, S', hS', hcom⟩ :
        ∃ S ∈ exec (Server.step replicated) (.boot .empty) cancelInBlock,
          S.cancelled 1 = true ∧
          (match (S.engine.sessions 1).txn with
          | .failed _ => false
          | _ => true) = true ∧
          ∃ S' ∈ exec (Server.step replicated) S (calls 1 [.commit, .apply true]),
            S'.engine.kv.clogGet 2 = .committed := by decide
    refine ⟨S, S', hS, hmark, fun c hc => ?_, hS', hcom⟩
    rw [hc] at hopen
    cases hopen

def keptOutside (S : Server ℕ) : Event ℕ → Bool
  | .cancel s =>
    decide (activeXid (S.engine.sessions s) = (S.engine.sessions s).txn.localXid) &&
      decide ((S.engine.sessions s).txn.fail = (S.engine.sessions s).txn)
  | _ => true

/-- The failed block in which a statement was cancelled answers for its xid, and stays failed. -/
theorem cancel_safe_failed_block :
    ∃ S : Server ℕ, Runs.exec (Server.step replicated) (.boot .empty) cancelInFailed = some S ∧
      2 ∈ S.engine.pa.running ∧ (∃ s, Answers (S.engine.sessions s) 2) ∧
      ∃ c, (S.engine.sessions 1).txn = .failed c := by
  have h : (exec (Server.step replicated) (.boot .empty) cancelInFailed).any (fun S =>
      decide (2 ∈ S.engine.pa.running) && S.cancelled 1) = true := by decide
  have hcheck :
      check (Server.step replicated) keptOutside (.boot .empty) cancelInFailed = true := by decide
  obtain ⟨S, hS, hx⟩ := (Option.any_eq_true _ _).mp h
  rw [Bool.and_eq_true, decide_eq_true_eq] at hx
  have hkept : Along (Server.step replicated) Kept (.boot .empty) cancelInFailed := by
    refine along_of_check _ (fun S ev hev => ?_) hcheck
    cases ev with
    | cancel =>
      rw [keptOutside, Bool.and_eq_true, decide_eq_true_eq] at hev
      exact hev.1
    | _ => trivial
  have hout : Along (Server.step replicated) OutsideBlocks (.boot .empty) cancelInFailed := by
    refine along_of_check _ (fun S ev hev => ?_) hcheck
    cases ev with
    | cancel =>
      intro c hc
      obtain ⟨-, hopen⟩ := (Bool.and_eq_true _ _).mp hev
      simp [hc, TxnState.fail] at hopen
    | _ => trivial
  obtain ⟨⟨hrun, -⟩, hfail⟩ := cancel_safe hS hkept
  obtain ⟨c, hc, -⟩ := hfail hout 1 hx.2
  exact ⟨S, hS, hx.1, hrun 2 hx.1, c, hc⟩

end Crabgresql.Cancellation
