import Crabgresql.Router.Failed

/-!
# The isolation level of a block

The router runs BEGIN on range 0 only; every other range opens its session with
`ensure_began`, which does not know the level the client asked for. On range 0 a
REPEATABLE READ block keeps its snapshots, whatever the pin does, and reads what
it read before; elsewhere it reads with a new snapshot every time.
-/

namespace Crabgresql.Router

open Mvcc Kv Procarray Exec Session Engine MultiRange Cluster Reads Function Option Gateway Runs
open Statement

variable {Row : Type} {G H : Gateway Row}
variable {a : Act Row} {env : Env} {v v' : View Row} {act : GatewayAct Row}

def Repeatable (txn : TxnState) : Prop :=
  ∃ c, (txn = .inTransaction c ∨ txn = .failed c) ∧ c.repeatableRead = true ∧
    c.globalSnapshot.isSome = true

theorem Repeatable.alive {txn : TxnState} (h : Repeatable txn) : txn ≠ .idle := by
  rintro rfl
  obtain ⟨c, hc | hc, -⟩ := h <;> cases hc

theorem Repeatable.fail {txn : TxnState} (h : Repeatable txn) : Repeatable txn.fail := by
  obtain ⟨c, rfl | rfl, hrr⟩ := h <;> exact ⟨c, .inr rfl, hrr⟩

def ends : Act Row → Bool
  | .commit | .rollback | .drop => true
  | _ => false

theorem repeatable_start {w : Work Row} (h : step env v (.start w) = some v')
    (hrr : Repeatable v.self.txn) : Repeatable v'.self.txn := by
  have hready := ready_of_call (s := .exec none w) h
  obtain ⟨kv, pa, lm, seq, txn, gx, pc, err⟩ := v
  simp only at hready hrr
  subst hready
  obtain ⟨c, rfl | rfl, hlevel⟩ := hrr
  · simp only [Session.step, View.start] at h
    split at h <;> cases h
    · exact ⟨c, .inl rfl, hlevel⟩
    · exact ⟨_, .inl rfl, hlevel⟩
  · cases h
    exact ⟨c, .inr rfl, hlevel⟩

theorem repeatable_step (hmode : env.cfg.mode = .replicated) (ha : ends a = false)
    (h : step env v a = some v') (hrr : Repeatable v.self.txn) :
    Repeatable v'.self.txn := by
  by_cases hstart : ∃ w, a = .start w
  · obtain ⟨w, rfl⟩ := hstart
    exact repeatable_start h hrr
  obtain ⟨c, hc, hlevel⟩ := hrr
  have hsame : v'.self.txn = v.self.txn → Repeatable v'.self.txn :=
    fun heq => ⟨c, heq ▸ hc, hlevel⟩
  have hfailed : v'.self.txn = v.self.txn.fail → Repeatable v'.self.txn :=
    fun heq => heq ▸ Repeatable.fail ⟨c, hc, hlevel⟩
  have hin : ∀ c', v.self.txn = .inTransaction c' → c' = c := by
    intro c' hc'
    rcases hc with hc | hc <;> rw [hc] at hc' <;> cases hc'
    rfl
  cases step_move hmode h with
  | still _ txn err hpc hx hw hplain =>
    obtain ⟨kv, pa, lm, seq, txn', gx, pc, err'⟩ := v
    simp only at hpc hc
    subst hpc
    cases a with
    | begin => rcases hc with rfl | rfl <;> cases h <;> exact hsame rfl
    | select =>
      rcases hc with rfl | rfl
      · simp only [Session.step, View.select, hlevel.1, if_true] at h
        cases h
        exact hsame rfl
      · cases h
        exact hsame rfl
    | start w => exact absurd ⟨w, rfl⟩ hstart
    | join => cases hplain
    | takeSnapshot | scan | next | acquire pick | recheck | propose | apply ok | finish
    | release => cases h
    | _ => cases ha
  | alloc w | resume w => exact absurd ⟨w, rfl⟩ hstart
  | read w x autocommit f txn hpc hx hw hauto htodo hchanges hops htxn =>
    rcases htxn with ⟨-, rfl⟩ | ⟨-, c', S, hc', rfl⟩
    · exact hsame rfl
    · obtain rfl := hin c' hc'
      exact ⟨_, .inl rfl, hlevel⟩
  | fail => exact hfailed rfl
  | stage f c' rows marker hpc hw hauto htxn =>
    obtain rfl := hin c' htxn
    exact ⟨_, .inl rfl, hlevel⟩
  | apply ok b epoch after =>
    cases after <;> cases ok <;> first | exact hsame rfl | exact hfailed rfl
  | commit | leave | drop => cases ha
  | abort _ hab => rcases hab with rfl | rfl <;> cases ha
  | _ => exact hsame rfl

/-- The block the client opened as REPEATABLE READ is one on range 0. -/
def Gateway.Level (G : Gateway Row) : Prop :=
  G.pin ≠ .none → G.block.repeatableRead = true → Repeatable (G.sess 0).txn

/-- Nothing is executing on a session that the router does not await. -/
def Gateway.Rest (G : Gateway Row) : Prop := ∀ r, G.awaited ≠ some r → (G.sess r).pc = .ready

theorem Gateway.Rest.ready (h : G.Rest) (hr : ∀ r, G.awaited = some r → (G.sess r).pc = .ready)
    (r : RangeId) : (G.sess r).pc = .ready := by
  by_cases hawait : G.awaited = some r
  · exact hr r hawait
  · exact h r hawait

/-- A pending statement is not the end of a block, an escalation is one of a block, and a decision
is awaited without a pin. -/
def Gateway.Pending (G : Gateway Row) : Task Row → Prop
  | .beginGlobal _ _ s | .joinPinned _ _ _ s => ends s.act = false ∧ G.pin ≠ .none
  | .joinStage _ s => ends s.act = false
  | .deciding _ _ => G.pin = .none
  | .ready | .session _ _ _ _ | .remote => True

structure LevelInv (G : Gateway Row) : Prop where
  level : G.Level
  rest : G.Rest
  pending : G.Pending G.task

variable {r : RangeId} {s : Statement Row}

theorem level_update {u : Sess Row} (h : G.Level)
    (hsess : H.sess = Function.update G.sess r u) (hpin : H.pin ≠ .none → G.pin ≠ .none)
    (hblock : H.block.repeatableRead = G.block.repeatableRead)
    (hu : r = 0 → G.pin ≠ .none → Repeatable (G.sess 0).txn → Repeatable u.txn) : H.Level := by
  intro hne hrr
  have hold := h (hpin hne) (hblock ▸ hrr)
  rw [hsess]
  by_cases hr : (0 : RangeId) = r
  · subst hr
    rw [update_self]
    exact hu rfl (hpin hne) hold
  · rw [update_of_ne hr]
    exact hold

theorem level_call (h : G.Level) (ha : G.pin ≠ .none → ends a = false)
    (hcall : G.call r a = some H) : H.Level := by
  obtain ⟨v, hv, rfl⟩ := call_eq_some hcall
  refine level_update (r := r) (u := v.self) h ?_ id rfl ?_
  · simp [SqlEngine.set]
  · rintro rfl hne hold
    exact repeatable_step rfl (ha hne) hv hold

theorem levelInv_runSession (hlevel : G.Level)
    (hrest : ∀ r' ≠ r, (G.sess r').pc = .ready) (hs : G.pin ≠ .none → ends s.act = false)
    (hrun : G.runSession r s = some H) : LevelInv H := by
  obtain ⟨v, hv, hsess, hpin, hblock, -, htask⟩ := runSession_eq hrun
  refine ⟨level_update hlevel hsess (by rw [hpin]; exact id) (by rw [hblock]) ?_, ?_, ?_⟩
  · rintro rfl hne hold
    have hself : Repeatable v.self.txn := repeatable_step rfl (hs hne) hv hold
    split_ifs
    · exact hself.fail
    · exact hself
  · intro r' hr'
    rw [hsess]
    have hne : r' ≠ r := by
      rintro rfl
      simp [awaited, htask] at hr'
    rw [update_of_ne hne]
    exact hrest r' hne
  · rw [htask]
    trivial

theorem levelInv_runOn (hlevel : G.Level)
    (hrest : ∀ r, (G.sess r).pc = .ready) (hs : G.pin ≠ .none → ends s.act = false)
    (hrun : G.runOn r s = some H) : LevelInv H := by
  unfold runOn at hrun
  split_ifs at hrun
  · exact levelInv_runSession hlevel (fun r' _ => hrest r') hs hrun
  · cases hrun
    exact ⟨hlevel, fun r _ => hrest r, trivial⟩

theorem levelInv_answer {rep : Reply} (hlevel : G.Level) (hrest : ∀ r, (G.sess r).pc = .ready) :
    LevelInv (G.answer rep) := by
  refine ⟨fun hne hrr => hlevel hne ?_, fun r _ => hrest r, trivial⟩
  simp only [answer] at hrr
  split_ifs at hrr <;> exact hrr

theorem ensureBegan_level (hlevel : G.Level) (hrest : ∀ r, (G.sess r).pc = .ready)
    (h : G.ensureBegan r = some H) :
    H.Level ∧ (∀ r, (H.sess r).pc = .ready) ∧ H.pin = G.pin ∧ H.leads = G.leads := by
  unfold ensureBegan at h
  split at h
  · rename_i hidle
    have hlevel' := level_call hlevel (fun _ => rfl) h
    obtain ⟨v, hv, rfl⟩ := call_eq_some h
    refine ⟨hlevel', ?_, rfl, rfl⟩
    intro r'
    rw [sess_setRange]
    by_cases hr : r' = r
    · subst hr
      have hpc : ((G.ranges r').engine.view own).self.pc = .ready := hrest r'
      have htxn : ((G.ranges r').engine.view own).self.txn = .idle := hidle
      simp only [Session.step, View.begin, hpc, htxn] at hv
      cases hv
      simp [SqlEngine.set]
    · rw [update_of_ne hr]
      exact hrest r'
  · cases h
    exact ⟨hlevel, hrest, rfl, rfl⟩

theorem levelInv_stageOn {g : Xid} (hlevel : G.Level)
    (hrest : ∀ r, (G.sess r).pc = .ready) (hs : ends s.act = false)
    (hstage : G.stageOn r g s = some H) : LevelInv H := by
  unfold stageOn at hstage
  split_ifs at hstage
  · obtain ⟨K, hK, hjoin⟩ := bind_eq_some_iff.mp hstage
    obtain ⟨L, hL, rfl⟩ := map_eq_some_iff.mp hjoin
    obtain ⟨hlevelK, hrestK, -⟩ := ensureBegan_level hlevel hrest hK
    have hlevelL := level_call hlevelK (fun _ => rfl) hL
    obtain ⟨v, -, hsess, -⟩ := call_sess hL
    refine ⟨hlevelL, ?_, hs⟩
    intro r' hr'
    have hne : r' ≠ r := by
      rintro rfl
      simp [awaited] at hr'
    change (L.sess r').pc = .ready
    rw [hsess, update_of_ne hne]
    exact hrestK r'
  · cases hstage
    exact levelInv_answer hlevel hrest
  · cases hstage
    exact ⟨hlevel, fun r _ => hrest r, trivial⟩

theorem levelInv_escalate {p : Option RangeId}
    (hlevel : G.Level) (hrest : ∀ r, (G.sess r).pc = .ready) (hs : ends s.act = false)
    (hne : G.pin ≠ .none) : LevelInv (G.escalate p r s) := by
  unfold escalate
  split_ifs
  · exact ⟨hlevel, fun r _ => hrest r, hs, hne⟩
  · exact levelInv_answer hlevel hrest

theorem ends_of_routed (hs : s.routed = true) : ends s.act = false := by
  cases s <;> first | rfl | cases hs

/-- BEGIN finds the session of range 0 here and idle; the range is led here, so no other leader
writes to it. -/
def Gateway.Opens (G : Gateway Row) : GatewayAct Row → Prop
  | .dispatch s => G.pin = .none → isBegin s = true → G.leads 0 = true ∧ (G.sess 0).txn = .idle
  | .replicate r _ => r ≠ 0
  | _ => True

instance (G : Gateway Row) (act : GatewayAct Row) : Decidable (G.Opens act) := by
  induction act using GatewayAct.casesOn <;> unfold Gateway.Opens <;> infer_instance

theorem levelInv_opened {rr : Bool} (hrest : ∀ r, (G.sess r).pc = .ready)
    (hleads : G.leads 0 = true) (hidle : (G.sess 0).txn = .idle)
    (hrun : runOn { G with pin := .opened, block := ⟨rr, false⟩ } 0 (.begin rr) = some H) :
    LevelInv H := by
  simp only [runOn, hleads, if_true] at hrun
  obtain ⟨v, hv, hsess, -, hblock, -, htask⟩ := runSession_eq hrun
  refine ⟨?_, ?_, by rw [htask]; trivial⟩
  · intro _ hrr
    rw [hblock] at hrr
    obtain rfl : rr = true := hrr
    rw [hsess, update_self]
    have hpc : ((G.ranges 0).engine.view own).self.pc = .ready := hrest 0
    have htxn : ((G.ranges 0).engine.view own).self.txn = .idle := hidle
    simp only [Statement.act, Session.step, View.begin, hpc, htxn] at hv
    cases hv
    exact ⟨_, .inl rfl, rfl, rfl⟩
  · intro r' hr'
    have hne : r' ≠ 0 := by
      rintro rfl
      simp [awaited, htask] at hr'
    rw [hsess, update_of_ne hne]
    exact hrest r'

theorem levelInv_joinPinned {p : RangeId} {g : Xid} (hlevel : G.Level)
    (hrest : ∀ r, (G.sess r).pc = .ready) (hs : ends s.act = false ∧ G.pin ≠ .none)
    (hjoin : G.call p (.join g) = some H) : LevelInv { H with task := .joinPinned p r g s } := by
  obtain ⟨v, -, hsess, hpin, -⟩ := call_sess hjoin
  refine ⟨(level_call hlevel (fun _ => rfl) hjoin :), ?_, hs.1, hpin ▸ hs.2⟩
  intro r' hr'
  have hne : r' ≠ p := by
    rintro rfl
    simp [awaited] at hr'
  change (H.sess r').pc = .ready
  rw [hsess, update_of_ne hne]
  exact hrest r'

theorem releaseAll_ready {ranges : List RangeId} (hrest : ∀ r, (G.sess r).pc = .ready)
    (h : G.releaseAll ranges = some H) : (∀ r, (H.sess r).pc = .ready) ∧ H.pin = G.pin := by
  induction ranges generalizing G with
  | nil =>
    cases h
    exact ⟨hrest, rfl⟩
  | cons r rs ih =>
    obtain ⟨K, hK, hH⟩ := bind_eq_some_iff.mp h
    split_ifs at hK
    · obtain ⟨v, hv, hsess, hpin, -⟩ := call_sess hK
      have hready : v.self.pc = .ready := by
        simp only [Session.step, View.drop] at hv
        split at hv
        · rename_i hpc
          split at hv <;> cases hv <;> exact hpc
        · cases hv
      have hrestK : ∀ r', (K.sess r').pc = .ready := by
        intro r'
        rw [hsess]
        by_cases hr : r' = r
        · rw [hr, update_self]
          exact hready
        · rw [update_of_ne hr]
          exact hrest r'
      obtain ⟨hrestH, hpinH⟩ := ih hrestK hH
      exact ⟨hrestH, hpinH.trans hpin⟩
    · cases hK
      exact ih hrest hH

theorem LevelInv.congr (h : LevelInv G) (hsess : H.sess = G.sess) (hpin : H.pin = G.pin)
    (hblock : H.block = G.block) (htask : H.task = G.task) : LevelInv H := by
  obtain ⟨h1, h2, h3⟩ := h
  refine ⟨?_, ?_, ?_⟩
  · unfold Level at *
    rw [hsess, hpin, hblock]
    exact h1
  · unfold Rest awaited at *
    rw [hsess, htask]
    exact h2
  · unfold Gateway.Pending at *
    rw [hpin, htask]
    exact h3

theorem levelInv_step (h : LevelInv G) (hok : G.Opens act) (hstep : G.step act = some H) :
    LevelInv H := by
  have hpending := h.pending
  have hrest : G.awaited = none → ∀ r, (G.sess r).pc = .ready :=
    fun hno r => h.rest r (by simp [hno])
  have hback : ∀ {r}, G.awaited = some r → (G.sess r).pc = .ready → ∀ r, (G.sess r).pc = .ready :=
    fun hr hpc => h.rest.ready fun r' hr' => by
      cases hr.symm.trans hr'
      exact hpc
  unfold awaited at hrest
  cases took_of_step hstep with
  | refused ht | unbegun ht | remote ht | undecided ht =>
    exact levelInv_answer h.level (hrest (by rw [ht]))
  | opened ht hpin hrun =>
    -- The block is opened on the idle session of range 0, with its level.
    obtain ⟨hleads, hidle⟩ := hok hpin rfl
    exact levelInv_opened (hrest (by rw [ht])) hleads hidle hrun
  | nested ht _ hrun => exact levelInv_runOn h.level (hrest (by rw [ht])) (fun _ => rfl) hrun
  | closed ht _ _ hrun =>
    exact levelInv_runOn (G := { G with pin := .none }) (fun hne => absurd rfl hne)
      (hrest (by rw [ht])) (fun hne => absurd rfl hne) hrun
  | decides ht => exact ⟨fun hne => absurd rfl hne, fun r _ => hrest (by rw [ht]) r, rfl⟩
  | ran ht hs _ _ _ hrun =>
    exact levelInv_runOn h.level (hrest (by rw [ht])) (fun _ => ends_of_routed hs) hrun
  | pinned ht hs _ hpin hK hrun =>
    obtain ⟨hlevelK, hrestK, -⟩ := ensureBegan_level (G := { G with pin := .range _ })
      (fun _ hrr => h.level (by simp [hpin]) hrr) (hrest (by rw [ht])) hK
    exact levelInv_runOn hlevelK hrestK (fun _ => ends_of_routed hs) hrun
  | @escalated s p r ht hs _ hpin =>
    exact levelInv_escalate h.level (hrest (by rw [ht])) (ends_of_routed hs)
      (by cases p <;> simp [hpin])
  | staged ht hs _ hpin hstage =>
    exact levelInv_stageOn (G := { G with pin := .global _ _ })
      (fun _ hrr => h.level (by simp [hpin]) hrr) (hrest (by rw [ht])) (ends_of_routed hs) hstage
  | @worked a r _ ha hr hcall =>
    have hlevel := level_call h.level
      (fun _ => by cases a <;> first | rfl | exact absurd ha Bool.false_ne_true) hcall
    obtain ⟨v, hv, rfl⟩ := call_eq_some hcall
    refine ⟨hlevel, ?_, h.pending⟩
    intro r' hr'
    have hne : r' ≠ r := by
      rintro rfl
      exact hr' hr
    rw [sess_setRange, update_of_ne hne]
    exact h.rest r' hr'
  | returned hr hpc => exact levelInv_answer h.level (hback hr hpc)
  | resumed ht hpc hrun =>
    rw [ht] at hpending
    exact levelInv_runSession h.level (fun r' _ => hback (by rw [awaited, ht]) hpc r')
      (fun _ => hpending) hrun
  | joined ht hpc hstage =>
    rw [ht] at hpending
    exact levelInv_stageOn (G := { G with pin := .global _ _ })
      (fun _ hrr => h.level hpending.2 hrr) (hback (by rw [awaited, ht]) hpc) hpending.1 hstage
  | begun ht hstage =>
    rw [ht] at hpending
    exact levelInv_stageOn (G := { G with pin := .global _ _ })
      (fun _ hrr => h.level hpending.2 hrr) (hrest (by rw [ht])) hpending.1 hstage
  | enlists ht hjoin =>
    rw [ht] at hpending
    exact levelInv_joinPinned h.level (hrest (by rw [ht])) hpending hjoin
  | released ht hrel =>
    rw [ht] at hpending
    obtain ⟨hrestH, hpinH⟩ := releaseAll_ready (hrest (by rw [ht])) hrel
    exact levelInv_answer (fun hne => absurd (hpinH.trans hpending) hne) hrestH
  | other ha hE =>
    refine h.congr ?_ rfl rfl rfl
    rw [sess_setRange, other_sess ha hE, update_eq_self]
  | @replicate r =>
    refine h.congr ?_ rfl rfl rfl
    rw [sess_setRange]
    exact update_eq_self r G.sess
  | lead => exact h.congr rfl rfl rfl rfl

theorem levelInv_initial (canEscalate : Bool) :
    LevelInv (initial canEscalate : Gateway Row) :=
  ⟨fun hne => absurd rfl hne, fun _ _ => rfl, trivial⟩

/-- The session has nothing in execution but the enlistment of its block, whose record is about its
own xid. -/
def Enlisting (c : TxnCtx) (u : Sess Row) : Prop :=
  match u.pc with
  | .ready | .preparing _ => True
  | .committing b _ after => after = .enlist ∧ b.changes = [] ∧ c.xid = some b.xid
  | .starting _ _ _ | .scanning _ | .looping _ | .acquiring _ _ | .locked _ _ | .finishing _ _
  | .releasing _ _ => False

/-- The calls of a block that goes on without writing. -/
def passive : Act Row → Bool
  | .start _ | .commit | .rollback | .drop => false
  | _ => true

theorem shown_ownRecord {kv : Store Row} {glob : GlobalView} {S : Snapshot} {c : TxnCtx}
    {b : Batch Row} (hseq : SeqOnly b.seqOps) (hb : b.changes = []) (hown : c.xid = some b.xid)
    (k : RowKey) (y : Xid) : shown (applyBatch kv b.ops) glob S c k y = shown kv glob S c k y := by
  have hsees : ∀ x, sees (applyBatch kv b.ops) glob S c x = sees kv glob S c x := by
    intro x
    unfold sees
    rw [Bool.eq_iff_iff, committedVisible_iff, committedVisible_iff]
    by_cases hx : x = b.xid
    · exact iff_of_true (.inl (hx ▸ hown)) (.inl (hx ▸ hown))
    · rw [globalStatus_applyBatch hseq hx]
  have hversion : (applyBatch kv b.ops).version k y = kv.version k y := by
    rcases version_applyBatch kv b.ops k y with hsame | ⟨t, -, hop⟩
    · exact hsame
    · obtain ⟨ch, hch, -⟩ := version_mem_ops hseq hop
      rw [hb] at hch
      cases hch
  refine Option.ext fun row => ?_
  unfold shown
  rw [liveAt_eq_some, liveAt_eq_some, hversion]
  simp only [isLive_iff_sees, hsees]

/-- The router's block on the engine and what it is shown stay as they were on `E₀`. -/
structure Rereads (E₀ : RangeEngine Row) (c : TxnCtx) (S : Snapshot) (E : RangeEngine Row) :
    Prop where
  reading : Reading E₀ own c S E
  enlisting : Enlisting c (E.engine.sessions own)

section Rereads

variable {E₀ E E' : RangeEngine Row} {c : TxnCtx} {S : Snapshot}

theorem enlisting_call (hrr : c.repeatableRead = true)
    (htxn : v.self.txn = .inTransaction c) (henl : Enlisting c v.self) (ha : passive a = true)
    (hv : step env v a = some v') :
    v'.self.txn = .inTransaction c ∧ Enlisting c v'.self := by
  obtain ⟨kv, pa, lm, seq, txn, gx, pc, err⟩ := v
  simp only at htxn
  subst htxn
  cases pc with
  | ready =>
    cases a with
    | begin =>
      cases hv
      exact ⟨rfl, trivial⟩
    | select =>
      simp only [Session.step, View.select, hrr, if_true] at hv
      cases hv
      exact ⟨rfl, trivial⟩
    | join =>
      simp only [Session.step, View.join] at hv
      split at hv <;> cases hv
      · exact ⟨rfl, trivial⟩
      · exact ⟨rfl, rfl, rfl, ‹_›⟩
    | start | commit | rollback | drop => cases ha
    | _ => cases hv
  | preparing =>
    cases a <;> cases hv
    exact ⟨rfl, trivial⟩
  | committing b epoch after =>
    obtain ⟨rfl, -⟩ := henl
    cases a <;> cases hv
    rename_i ok
    cases ok <;> exact ⟨rfl, trivial⟩
  | _ => exact henl.elim

theorem Rereads.call (h : Rereads E₀ c S E) (hrr : c.repeatableRead = true) (ha : passive a = true)
    (hstep : E.step (.call own a) = some E') : Rereads E₀ c S E' := by
  have hshaped := shaped_step h.reading.shaped hstep
  have hshown : ∀ k y, shown E'.engine.kv E'.glob S c k y = shown E.engine.kv E.glob S c k y := by
    intro k y
    obtain ⟨hglob, v, -, heng, hkv⟩ := call_cases hstep
    rw [hglob, heng]
    change shown v.kv E.glob S c k y = _
    rcases hkv with hkv | ⟨b, hb, hkv⟩ <;> rw [hkv]
    have hseq := applying_seqOnly h.reading.shaped hb
    have henl := h.enlisting
    unfold applying at hb
    split at hb
    · split at hb
      · rename_i b' epoch after hpc
        cases hb
        unfold Enlisting at henl
        rw [hpc] at henl
        exact shown_ownRecord hseq henl.2.1 henl.2.2 k y
      · cases hb
    · cases hb
  simp only [RangeEngine.step, SqlEngine.step, map_eq_some_iff] at hstep
  obtain ⟨e, ⟨v, hv, rfl⟩, rfl⟩ := hstep
  obtain ⟨htxn, henl⟩ := enlisting_call hrr h.reading.txn h.enlisting ha hv
  have hself : (E.engine.set own v).sessions own = v.self := by simp [SqlEngine.set]
  exact ⟨⟨hshaped, hself ▸ htxn, fun k y => (hshown k y).trans (h.reading.shown k y)⟩, hself ▸ henl⟩

theorem Rereads.other (h : Rereads E₀ c S E) (hrr : c.repeatableRead = true) {act : EngineAct Row}
    (ha : EngineAct.isOther act = true) (hok : Steady own c S E act)
    (hstep : E.step act = some E') : Rereads E₀ c S E' := by
  refine ⟨reading_step hrr h.reading hok hstep, ?_⟩
  have hsess := other_sess (G := ⟨fun _ => E, fun _ => false, fun _ => false, false, .none, .ready,
    none, ⟨false, false⟩⟩) (r := 0) ha hstep
  rw [hsess]
  exact h.enlisting

end Rereads

/-- A statement of the block that neither ends nor fails it and writes nothing on range 0. -/
def Statement.rereads : Statement Row → Bool
  | .begin _ => true
  | .commit | .rollback => false
  | .exec target _ => decide (target ≠ some 0)
  | .query _ fails => !fails

/-- The pending statement reads, if it goes to range 0. -/
def Statement.ReadsOn (s : Statement Row) (r : RangeId) : Prop :=
  r = 0 → passive s.act = true ∧ s.fails = false

theorem Statement.readsOn_of_rereads (h : s.rereads = true)
    (hr : s.pinningRange = .ok (some r)) : s.ReadsOn r := by
  rintro rfl
  cases s with
  | exec target =>
    cases target with
    | none => cases hr
    | some =>
      cases hr
      simp [rereads] at h
  | query target fails => exact ⟨rfl, by simpa [Statement.rereads, Statement.fails] using h⟩
  | _ => cases hr

/-- The router keeps the block open and sends no write of it to range 0. -/
structure RereadInv (E₀ : RangeEngine Row) (c : TxnCtx) (S : Snapshot) (G : Gateway Row) : Prop where
  rereads : Rereads E₀ c S (G.ranges 0)
  pin : G.pin ≠ .none
  task : match G.task with
    | .beginGlobal _ r s | .joinPinned _ r _ s | .joinStage r s => s.ReadsOn r
    | .deciding _ _ => False
    | .ready | .session _ _ _ _ | .remote => True

section RereadInv

variable {E₀ : RangeEngine Row} {c : TxnCtx} {S : Snapshot} {r : RangeId} {s : Statement Row}

theorem rereads_call (h : Rereads E₀ c S (G.ranges 0)) (hrr : c.repeatableRead = true)
    (ha : r = 0 → passive a = true) (hcall : G.call r a = some H) :
    Rereads E₀ c S (H.ranges 0) ∧ H.pin = G.pin ∧ H.task = G.task := by
  obtain ⟨E, hE, rfl⟩ := map_eq_some_iff.mp hcall
  refine ⟨?_, rfl, rfl⟩
  by_cases hr : r = 0
  · subst hr
    simp only [setRange, update_self]
    exact h.call hrr (ha rfl) hE
  · simp only [setRange, update_of_ne (Ne.symm hr)]
    exact h

theorem rereadInv_answer {rep : Reply} (h : Rereads E₀ c S (G.ranges 0)) (hpin : G.pin ≠ .none) :
    RereadInv E₀ c S (G.answer rep) := ⟨h, hpin, trivial⟩

theorem rereadInv_runSession (h : Rereads E₀ c S (G.ranges 0)) (hrr : c.repeatableRead = true)
    (hpin : G.pin ≠ .none) (hs : s.ReadsOn r) (hrun : G.runSession r s = some H) :
    RereadInv E₀ c S H := by
  obtain ⟨K, hK, rfl⟩ := map_eq_some_iff.mp hrun
  obtain ⟨hread, hpinK, -⟩ := rereads_call h hrr (fun hr => (hs hr).1) hK
  cases hfails : s.fails with
  | false => exact ⟨hread, hpinK ▸ hpin, trivial⟩
  | true =>
    -- A failing query runs on another range.
    have hr : (0 : RangeId) ≠ r := by
      rintro rfl
      rw [(hs rfl).2] at hfails
      cases hfails
    refine ⟨?_, ?_, trivial⟩
    · simp only [if_true, failQuery, setRange, update_of_ne hr]
      exact hread
    · exact hpinK ▸ hpin

theorem rereadInv_runOn (h : Rereads E₀ c S (G.ranges 0)) (hrr : c.repeatableRead = true)
    (hpin : G.pin ≠ .none) (hs : s.ReadsOn r) (hrun : G.runOn r s = some H) :
    RereadInv E₀ c S H := by
  unfold runOn at hrun
  split_ifs at hrun
  · exact rereadInv_runSession h hrr hpin hs hrun
  · cases hrun
    exact ⟨h, hpin, trivial⟩

theorem rereads_ensureBegan (h : Rereads E₀ c S (G.ranges 0)) (hrr : c.repeatableRead = true)
    (hb : G.ensureBegan r = some H) : Rereads E₀ c S (H.ranges 0) ∧ H.pin = G.pin := by
  unfold ensureBegan at hb
  split at hb
  · obtain ⟨hread, hpin, -⟩ := rereads_call h hrr (fun _ => rfl) hb
    exact ⟨hread, hpin⟩
  · cases hb
    exact ⟨h, rfl⟩

theorem rereadInv_stageOn {g : Xid} (h : Rereads E₀ c S (G.ranges 0))
    (hrr : c.repeatableRead = true) (hpin : G.pin ≠ .none) (hs : s.ReadsOn r)
    (hstage : G.stageOn r g s = some H) : RereadInv E₀ c S H := by
  unfold stageOn at hstage
  split_ifs at hstage
  · obtain ⟨K, hK, hjoin⟩ := bind_eq_some_iff.mp hstage
    obtain ⟨L, hL, rfl⟩ := map_eq_some_iff.mp hjoin
    obtain ⟨hreadK, hpinK⟩ := rereads_ensureBegan h hrr hK
    obtain ⟨hreadL, hpinL, -⟩ := rereads_call hreadK hrr (fun _ => rfl) hL
    exact ⟨hreadL, fun hnone => hpin (hpinK ▸ hpinL ▸ hnone), hs⟩
  · cases hstage
    exact rereadInv_answer h hpin
  · cases hstage
    exact ⟨h, hpin, trivial⟩

theorem rereadInv_escalate {p : Option RangeId} (h : Rereads E₀ c S (G.ranges 0))
    (hpin : G.pin ≠ .none) (hs : s.ReadsOn r) : RereadInv E₀ c S (G.escalate p r s) := by
  unfold escalate
  split_ifs
  · exact ⟨h, hpin, hs⟩
  · exact rereadInv_answer h hpin

theorem Statement.readsOn_of_untargeted (hs : s.rereads = true) (hres : s.pinningRange = .ok none)
    (r : RangeId) : s.ReadsOn r := by
  intro _
  cases s with
  | begin => exact ⟨rfl, rfl⟩
  | commit | rollback => cases hs
  | exec target => cases target <;> cases hres
  | query target fails => exact ⟨rfl, by simpa [Statement.rereads, Statement.fails] using hs⟩

/-- The steps between two reads of the block on range 0. -/
def Gateway.Repeats (c : TxnCtx) (S : Snapshot) (G : Gateway Row) : GatewayAct Row → Prop
  | .dispatch s => s.rereads = true
  | .other r a => r = 0 → Steady own c S (G.ranges 0) a
  | .replicate r _ => r ≠ 0
  | .work _ | .resume | .globalBegun _ | .remoteReturned _ | .decided _ | .lead _ _ _ => True

instance [DecidableEq Row] (c : TxnCtx) (S : Snapshot) (G : Gateway Row) (act : GatewayAct Row) :
    Decidable (G.Repeats c S act) := by
  induction act using GatewayAct.casesOn <;> unfold Gateway.Repeats <;> infer_instance

theorem rereadInv_step (h : RereadInv E₀ c S G) (hrr : c.repeatableRead = true)
    (hok : G.Repeats c S act) (hstep : G.step act = some H) : RereadInv E₀ c S H := by
  have hpending := h.task
  cases took_of_step hstep with
  | refused | returned | unbegun | remote => exact rereadInv_answer h.rereads h.pin
  | opened _ hpin => exact absurd hpin h.pin
  | nested _ _ hrun => exact rereadInv_runOn h.rereads hrr h.pin (fun _ => ⟨rfl, rfl⟩) hrun
  | closed _ hs | decides _ hs => rcases hs with rfl | rfl <;> cases hok
  | @ran s p r _ _ _ hp hr _ hrun =>
    refine rereadInv_runOn h.rereads hrr h.pin ?_ hrun
    cases p with
    | none => exact readsOn_of_untargeted hok hp r
    | some r' => exact hr r' rfl ▸ readsOn_of_rereads hok hp
  | @pinned s r K _ _ _ hp _ hK hrun =>
    obtain ⟨hreadK, hpinK⟩ :=
      rereads_ensureBegan (G := { G with pin := .range r }) h.rereads hrr hK
    exact rereadInv_runOn hreadK hrr (by simp [hpinK]) (readsOn_of_rereads hok hp) hrun
  | escalated _ _ hp =>
    exact rereadInv_escalate h.rereads h.pin (readsOn_of_rereads hok hp)
  | staged _ _ hp _ hstage =>
    exact rereadInv_stageOn (G := { G with pin := .global _ _ }) h.rereads hrr nofun
      (readsOn_of_rereads hok hp) hstage
  | @worked a r _ ha hr hcall =>
    have hpassive : passive a = true := by
      cases a <;> first | rfl | exact absurd ha Bool.false_ne_true
    obtain ⟨hread, hpin, htask⟩ := rereads_call h.rereads hrr (fun _ => hpassive) hcall
    exact ⟨hread, hpin ▸ h.pin, htask ▸ hpending⟩
  | resumed ht _ hrun =>
    rw [ht] at hpending
    exact rereadInv_runSession h.rereads hrr h.pin hpending hrun
  | joined ht _ hstage | begun ht hstage =>
    rw [ht] at hpending
    exact rereadInv_stageOn (G := { G with pin := .global _ _ }) h.rereads hrr nofun hpending hstage
  | enlists ht hjoin =>
    rw [ht] at hpending
    obtain ⟨hread, hpin, -⟩ := rereads_call h.rereads hrr (fun _ => rfl) hjoin
    exact ⟨hread, hpin ▸ h.pin, hpending⟩
  | undecided ht | released ht =>
    rw [ht] at hpending
    exact hpending.elim
  | @other r _ _ ha hE =>
    refine ⟨?_, h.pin, hpending⟩
    by_cases hr : r = 0
    · subst hr
      simp only [setRange, update_self]
      exact h.rereads.other hrr ha (hok rfl) hE
    · simp only [setRange, update_of_ne (Ne.symm hr)]
      exact h.rereads
  | replicate =>
    refine ⟨?_, h.pin, hpending⟩
    simp only [setRange, update_of_ne (Ne.symm hok)]
    exact h.rereads
  | lead => exact ⟨h.rereads, h.pin, hpending⟩

end RereadInv

theorem shaped_gateway_step (h : Shaped (G.ranges 0)) (hok : G.Opens act)
    (hstep : G.step act = some H) : Shaped (H.ranges 0) := by
  refine (advances_step hstep ?_).shaped h
  cases act with
  | replicate => exact decide_eq_false hok
  | _ => rfl

/-- Two reads of a REPEATABLE READ block on range 0 return the same rows, whatever the block does on
other ranges in between. -/
theorem repeatableRead_on_zero {canEscalate : Bool} {acts later : List (GatewayAct Row)}
    {G H : Gateway Row} (h : exec step (.initial canEscalate) acts = some G)
    (hok : Runs.Along step Gateway.Opens (.initial canEscalate) acts)
    (hpin : G.pin ≠ .none) (hlevel : G.block.repeatableRead = true) (hready : G.task = .ready)
    {c : TxnCtx} (htxn : (G.sess 0).txn = .inTransaction c)
    (hlater : exec step G later = some H) (hrepeats : ∀ S, c.globalSnapshot = some S →
      Runs.Along step (Gateway.Repeats c S) G later) (t : TableId) :
    (H.ranges 0).rows own t = (G.ranges 0).rows own t := by
  have hinv : LevelInv G ∧ Shaped (G.ranges 0) :=
    exec_invariant (I := fun G : Gateway Row => LevelInv G ∧ Shaped (G.ranges 0))
      (fun _ _ _ hI hs hstep => ⟨levelInv_step hI.1 hs hstep, shaped_gateway_step hI.2 hs hstep⟩)
      ⟨levelInv_initial _, shaped_initial⟩ hok h
  obtain ⟨c', hc', hrr, hsome⟩ := hinv.1.level hpin hlevel
  obtain rfl : c' = c := by
    rcases hc' with hc' | hc' <;> rw [htxn] at hc' <;> cases hc'
    rfl
  obtain ⟨S, hS⟩ := isSome_iff_exists.mp hsome
  have hpc : (G.sess 0).pc = .ready := hinv.1.rest 0 (by simp [awaited, hready])
  have hstart : RereadInv (G.ranges 0) c' S G := by
    refine ⟨⟨⟨hinv.2, htxn, fun _ _ => rfl⟩, ?_⟩, hpin, ?_⟩
    · unfold Enlisting
      rw [show ((G.ranges 0).engine.sessions own).pc = .ready from hpc]
      trivial
    · rw [hready]
      trivial
  have hend : RereadInv (G.ranges 0) c' S H :=
    exec_invariant (fun _ _ _ hI hs hstep => rereadInv_step hI hrr hs hstep) hstart
      (hrepeats S hS) hlater
  exact hend.rereads.reading.rows hinv.2 htxn hrr hS t

section Blocks

def insertElsewhere (r : RangeId) : List (GatewayAct ℕ) :=
  (runs 1 insertOne [] ++ callsOf 1 [.release]).map (.other r)

def readBlock (r : RangeId) : List (GatewayAct ℕ) :=
  leadBoth ++ atOnce (.begin true) ++ atOnce (.query (some (some r)) false)

/-- The block is escalated by a read of range 1 and reads range 0 again. -/
def readBoth : List (GatewayAct ℕ) :=
  insertElsewhere 0 ++
    [.dispatch (.query (some (some 1)) false), .globalBegun (some globalXidBase), .resume, .resume,
      .resume, .dispatch (.query (some (some 0)) false), .resume, .resume]

def emptyBlock : TxnCtx :=
  ⟨none, ⟨1, 1, []⟩, true, some ⟨globalXidBase, globalXidBase, []⟩, []⟩

end Blocks

/-- On range 1 the block reads a row that was committed after its first read. -/
theorem repeatableRead_on_one :
    ∃ G H : Gateway ℕ, exec step (.initial true) (readBlock 1) = some G ∧
      G.pin = .range 1 ∧ G.block.repeatableRead = true ∧
      exec step G
        (insertElsewhere 1 ++ atOnce (.query (some (some 1)) false)) = some H ∧
      H.pin = .range 1 ∧ (G.ranges 1).rows own 1 = some [] ∧
      (H.ranges 1).rows own 1 = some [(1, 1)] := by
  obtain ⟨G, hG, ⟨hpin, hlevel, hbefore⟩, H, hH, hpin', hafter⟩ :
      ∃ G ∈ exec step (.initial true) (readBlock 1),
        (G.pin = .range 1 ∧ G.block.repeatableRead = true ∧ (G.ranges 1).rows own 1 = some []) ∧
        ∃ H ∈ exec step G
          (insertElsewhere 1 ++ atOnce (.query (some (some 1)) false)),
          H.pin = .range 1 ∧ (H.ranges 1).rows own 1 = some [(1, 1)] := by decide +kernel
  exact ⟨G, H, hG, hpin, hlevel, hH, hpin', hbefore, hafter⟩

theorem repeatableRead_on_zero_escalated :
    ∃ G H : Gateway ℕ, exec step (.initial true) (readBlock 0) = some G ∧
      exec step G readBoth = some H ∧
      (H.ranges 0).rows own 1 = (G.ranges 0).rows own 1 ∧
      (H.ranges 0).rows 2 1 = some [(1, 1)] := by
  obtain ⟨G, hG, ⟨hready, hpin, hlevel, htxn⟩, hrepeats, H, hH, hrows⟩ :
      ∃ G ∈ exec step (.initial true) (readBlock 0),
        (G.task.isReady = true ∧ G.pin ≠ .none ∧ G.block.repeatableRead = true ∧
          (G.sess 0).txn = .inTransaction emptyBlock) ∧
        Runs.Along step (Repeats emptyBlock ⟨globalXidBase, globalXidBase, []⟩) G
          readBoth ∧
        ∃ H ∈ exec step G readBoth, (H.ranges 0).rows 2 1 = some [(1, 1)] := by
    decide +kernel
  have hok : Runs.Along step Opens (.initial true) (readBlock 0) := by
    decide +kernel
  refine ⟨G, H, hG, hH, ?_, hrows⟩
  refine repeatableRead_on_zero hG hok hpin hlevel (Task.eq_ready hready) htxn hH ?_ 1
  intro S hS
  cases hS
  exact hrepeats

end Crabgresql.Router
