import Crabgresql.Router.Engines
import Crabgresql.Router.Idle

/-!
# Failed blocks

The session of a range remembers that a statement of its block failed; the router
does not. A block that stays on the session of its home range, and whose every
error comes from that session, ends with a rollback when COMMIT arrives. An error
that the router itself answers leaves the session open, and COMMIT commits.
-/

namespace Crabgresql.Router

open Mvcc Kv Procarray Exec Session Engine MultiRange Cluster Function Option Runs Gateway View

variable {Row : Type} {G H : Gateway Row}
variable {p : RangeId} {G₀ : Gateway Row}
variable {s : Statement Row} {r : RangeId} {v v' : View Row} {env : Env} {xid : Option Xid}
  {u : Sess Row} {a : Act Row} {act : GatewayAct Row}

def Opened (u : Sess Row) : Prop := ∃ c, u.txn = .inTransaction c

def Failed (u : Sess Row) : Prop := ∃ c, u.txn = .failed c

/-- A statement of a block is in execution, outside global transactions: it has failed the block as
soon as it has an error to report. -/
structure InBlock (u : Sess Row) : Prop where
  txn : Opened u ∧ u.err = none ∨ Failed u ∧ u.err ≠ none
  globalXid : u.globalXid = none
  pc : match u.pc with
    | .ready => True
    | .starting _ _ autocommit => autocommit = false
    | .scanning f | .looping f | .acquiring f _ | .locked f _ => f.autocommit = false
    | .committing _ _ after => after = .keep
    | .preparing _ | .finishing _ _ | .releasing _ _ => False

theorem InBlock.alive (h : InBlock u) : u.txn ≠ .idle := by
  intro hidle
  rcases h.txn with ⟨⟨c, hc⟩, -⟩ | ⟨⟨c, hc⟩, -⟩ <;> rw [hidle] at hc <;> cases hc

theorem InBlock.frame (h : InBlock u) {f : Frame Row} (hf : u.pc.frame = some f) :
    f.autocommit = false := by
  have hpc := h.pc
  cases hp : u.pc <;> rw [hp] at hf hpc <;> cases hf <;> exact hpc

theorem InBlock.err (h : InBlock u) {c : TxnCtx} (hc : u.txn = .inTransaction c) :
    u.err = none := by
  rcases h.txn with ⟨-, herr⟩ | ⟨⟨c', hc'⟩, -⟩
  · exact herr
  · rw [hc] at hc'
    cases hc'

theorem InBlock.fail {txn : TxnState} {err err' : Option ExecError} {gx : Option Xid} {pc : Pc Row}
    (h : InBlock (⟨txn, gx, pc, err⟩ : Sess Row)) (herr : err' ≠ none) :
    InBlock (⟨txn.fail, gx, .ready, err'⟩ : Sess Row) ∧
      Failed (⟨txn.fail, gx, .ready, err'⟩ : Sess Row) := by
  have hfailed : Failed (⟨txn.fail, gx, .ready, err'⟩ : Sess Row) := by
    cases txn with
    | idle => exact absurd rfl h.alive
    | inTransaction c | failed c => exact ⟨c, rfl⟩
  exact ⟨⟨.inr ⟨hfailed, herr⟩, h.globalXid, trivial⟩, hfailed⟩

theorem InBlock.work (hmode : env.cfg.mode = .replicated) (ha : isInternal a = true)
    (h : InBlock v.self) (hstep : step env v a = some v') :
    InBlock v'.self ∧ (Failed v.self → Failed v'.self) := by
  have hbusy := pc_ne_ready_of_internal ha hstep
  have hpc' := h.pc
  cases step_move hmode hstep with
  | still _ txn err hpc | alloc w autocommit txn hpc | resume w x c hpc | commit x c hpc
  | abort _ hab x hpc => exact absurd hpc hbusy
  | read w x autocommit f txn hpc hx hw hauto htodo hchanges hops htxn =>
    rw [hpc] at hpc'
    rcases htxn with ⟨htrue, -⟩ | ⟨-, c, S, hc, rfl⟩
    · rw [show autocommit = false from hpc'] at htrue
      cases htrue
    · refine ⟨⟨.inl ⟨⟨_, rfl⟩, h.err hc⟩, h.globalXid, hauto.trans hpc'⟩, ?_⟩
      rintro ⟨c', hc'⟩
      rw [hc] at hc'
      cases hc'
  | fill f t rows cs seq n hpc | take f r found c hpc =>
    exact ⟨⟨h.txn, h.globalXid, h.frame (f := f) (by rw [hpc]; rfl)⟩, id⟩
  | walk _ f todo hpc =>
    refine ⟨⟨h.txn, h.globalXid, h.frame (f := f) ?_⟩, id⟩
    rcases hpc with hpc | hpc | ⟨r, hpc⟩ <;> rw [hpc] <;> rfl
  | target f todo r hpc => exact ⟨⟨h.txn, h.globalXid, h.frame (f := f) (by rw [hpc]; rfl)⟩, id⟩
  | grant f r pick lm hpc => exact ⟨⟨h.txn, h.globalXid, h.frame (by rw [hpc]; rfl)⟩, id⟩
  | wait => exact ⟨h, id⟩
  | fail _ f e lm seq hpc =>
    have hauto := h.frame hpc
    obtain ⟨hin, hfailed⟩ := h.fail (some_ne_none e)
    simp only [failPc, hauto]
    exact ⟨hin, fun _ => hfailed⟩
  | done f hpc =>
    have hauto := h.frame (f := f) (by rw [hpc]; rfl)
    simp only [hauto]
    exact ⟨⟨h.txn, h.globalXid, trivial⟩, id⟩
  | submit f hpc hw hauto =>
    rw [h.frame (f := f) (by rw [hpc]; rfl)] at hauto
    cases hauto
  | stage f c rows marker hpc hw hauto htxn hrows hmarker =>
    have hgx := h.globalXid
    rw [hgx] at hmarker
    refine ⟨⟨.inl ⟨⟨_, rfl⟩, h.err htxn⟩, hmarker, rfl⟩, ?_⟩
    rintro ⟨c', hc'⟩
    rw [htxn] at hc'
    cases hc'
  | apply ok b epoch after hpc =>
    rw [hpc] at hpc'
    obtain rfl : after = .keep := hpc'
    cases ok with
    | true =>
      simp only [Sess.returned, h.globalXid]
      exact ⟨⟨h.txn, rfl, trivial⟩, id⟩
    | false =>
      have herr : v.self.err.or (some ExecError.unavailable) ≠ none := by
        cases v.self.err <;> simp
      obtain ⟨hin, hfailed⟩ := h.fail herr
      exact ⟨hin, fun _ => hfailed⟩
  | prepared x hpc | finish x ack hpc | release x ack hpc =>
    rw [hpc] at hpc'
    exact hpc'.elim
  | _ => cases ha

theorem ready_of_call (h : step env v s.act = some v') : v.self.pc = .ready := by
  obtain ⟨kv, pa, lm, seq, txn, gx, pc, err⟩ := v
  cases s <;> cases pc <;> first | rfl | cases h

theorem inBlock_call (hmode : env.cfg.mode = .replicated) (hgx : v.self.globalXid = none)
    (hopen : v.self.txn ≠ .idle ∨ ∃ rr, s = .begin rr) (hclose : s ≠ .commit ∧ s ≠ .rollback)
    (h : step env v s.act = some v') :
    InBlock v'.self ∧ (Failed v.self → Failed v'.self) := by
  obtain ⟨kv, pa, lm, seq, txn, gx, pc, err⟩ := v
  simp only at hgx
  subst hgx
  obtain rfl : pc = .ready := ready_of_call h
  cases txn with
  | idle =>
    obtain ⟨rr, rfl⟩ := hopen.resolve_left fun hne => hne rfl
    cases h
    exact ⟨⟨.inl ⟨⟨_, rfl⟩, rfl⟩, rfl, trivial⟩, by simp [Failed]⟩
  | inTransaction c =>
    cases s with
    | commit => exact absurd rfl hclose.1
    | rollback => exact absurd rfl hclose.2
    | exec =>
      simp only [Statement.act, Session.step, View.start, ProcArray.beginWrite, hmode] at h
      split at h <;> cases h <;>
        exact ⟨⟨.inl ⟨⟨_, rfl⟩, rfl⟩, rfl, rfl⟩, by simp [Failed]⟩
    | begin | query =>
      cases h
      exact ⟨⟨.inl ⟨⟨_, rfl⟩, rfl⟩, rfl, trivial⟩, by simp [Failed]⟩
  | failed c =>
    cases s with
    | commit => exact absurd rfl hclose.1
    | rollback => exact absurd rfl hclose.2
    | _ =>
      cases h
      exact ⟨⟨.inr ⟨⟨c, rfl⟩, some_ne_none _⟩, rfl, trivial⟩, id⟩

def evalFailed (u : Sess Row) : Sess Row :=
  { u with txn := u.txn.fail, err := some (u.err.getD .evaluation) }

theorem InBlock.evalFailed (h : InBlock u) :
    InBlock (Router.evalFailed u) ∧ Failed (Router.evalFailed u) := by
  obtain ⟨txn, gx, pc, err⟩ := u
  have hfailed := (h.fail (some_ne_none (err.getD .evaluation))).2
  exact ⟨⟨.inr ⟨hfailed, some_ne_none _⟩, h.globalXid, h.pc⟩, hfailed⟩

theorem runSession_eq (h : G.runSession r s = some H) :
    ∃ v, step (G.ranges r).env ((G.ranges r).engine.view own) s.act = some v ∧
      H.sess = Function.update G.sess r (if s.fails then evalFailed v.self else v.self) ∧
      H.pin = G.pin ∧ H.block = G.block ∧ H.leads = G.leads ∧
      H.task = .session r s (s.tag (G.sess r).txn) (G.autoXid r s) := by
  obtain ⟨K, hK, rfl⟩ := map_eq_some_iff.mp h
  obtain ⟨v, hv, rfl⟩ := call_eq_some hK
  refine ⟨v, hv, ?_, ?_, ?_, ?_, rfl⟩
  · cases s.fails with
    | false =>
      change (G.setRange r _).sess = _
      rw [sess_setRange]
      simp [SqlEngine.set]
    | true =>
      change ((G.setRange r _).failQuery r).sess = _
      unfold failQuery
      simp only [sess_setRange, SqlEngine.set, update_self, update_idem]
      rfl
  all_goals cases s.fails <;> rfl

/-- The block has stayed on the session of its home range, which knows of its errors. -/
structure BlockInv (G : Gateway Row) : Prop where
  alone : ∀ r, (G.sess r).globalXid = none
  single : ∀ ranges g, G.pin ≠ .global ranges g
  alive : G.pin ≠ .none → (G.sess G.pin.home).txn ≠ .idle
  failed : G.pin ≠ .none → G.block.erred = true → Failed (G.sess G.pin.home)
  /-- The session of range 0 is where the block began, and fails only with the block on it. -/
  root : (∃ p, G.pin = .range p ∧ p ≠ 0) ∨
    G.pin = .opened ∧ G.block.erred = false ∧ G.task = .ready → Opened (G.sess 0)
  task : match G.task with
    | .ready => True
    | .remote => G.pin = .none
    | .session r _ _ _ => G.pin ≠ .none → r = G.pin.home ∧ InBlock (G.sess r) ∨
        r = 0 ∧ Opened (G.sess 0) ∧ (G.sess 0).pc = .ready ∧ (G.sess 0).err = none
    | .beginGlobal _ _ _ | .joinPinned _ _ _ _ | .joinStage _ _ | .deciding _ _ => False

theorem alone_runSession (h : ∀ r, (G.sess r).globalXid = none) (hrun : G.runSession r s = some H) :
    ∀ r, (H.sess r).globalXid = none := by
  obtain ⟨v, hv, hsess, -⟩ := runSession_eq hrun
  have hself : v.self.globalXid = none :=
    globalXid_step rfl (by cases s <;> rfl) hv (h r)
  intro r'
  rw [hsess]
  by_cases hr : r' = r
  · rw [hr, update_self]
    split_ifs <;> exact hself
  · rw [update_of_ne hr]
    exact h r'

theorem blockInv_runSession (halone : ∀ r, (G.sess r).globalXid = none)
    (hsingle : ∀ ranges g, G.pin ≠ .global ranges g) (hhome : r = G.pin.home)
    (hopen : (G.sess r).txn ≠ .idle ∨ ∃ rr, s = .begin rr) (hclose : s ≠ .commit ∧ s ≠ .rollback)
    (hfailed : G.block.erred = true → Failed (G.sess r))
    (hroot : ∀ p, G.pin = .range p → p ≠ 0 → Opened (G.sess 0)) (hrun : G.runSession r s = some H) :
    BlockInv H := by
  have halone' := alone_runSession halone hrun
  obtain ⟨v, hv, hsess, hpin, hblock, -, htask⟩ := runSession_eq hrun
  obtain ⟨hin, hkeep⟩ := inBlock_call rfl (halone r) hopen hclose hv
  have hin' : InBlock (H.sess r) ∧ (Failed (G.sess r) → Failed (H.sess r)) := by
    rw [hsess, update_self]
    split_ifs
    · exact ⟨hin.evalFailed.1, fun _ => hin.evalFailed.2⟩
    · exact ⟨hin, hkeep⟩
  refine ⟨halone', ?_, ?_, ?_, ?_, ?_⟩
  · rw [hpin]
    exact hsingle
  · intro _
    rw [hpin, ← hhome]
    exact hin'.1.alive
  · intro _ herred
    rw [hpin, ← hhome]
    exact hin'.2 (hfailed (hblock ▸ herred))
  · rintro (⟨p, hp, hp0⟩ | ⟨-, -, hready⟩)
    · have hr0 : (0 : RangeId) ≠ r := by
        rw [hhome, ← hpin, hp]
        exact Ne.symm hp0
      rw [hsess, update_of_ne hr0]
      exact hroot p (hpin ▸ hp) hp0
    · rw [htask] at hready
      cases hready
  · rw [htask]
    exact fun _ => .inl ⟨by rw [hpin]; exact hhome, hin'.1⟩

theorem blockInv_unpinned (halone : ∀ r, (G.sess r).globalXid = none) (hpin : G.pin = .none)
    (htask : G.task = .ready ∨ G.task = .remote ∨ ∃ r s tag auto, G.task = .session r s tag auto) :
    BlockInv G := by
  refine ⟨halone, ?_, ?_, ?_, ?_, ?_⟩
  · intro ranges g
    rw [hpin]
    nofun
  · exact fun hne => absurd hpin hne
  · exact fun hne => absurd hpin hne
  · rintro (⟨p, hp, -⟩ | ⟨hp, -⟩) <;> rw [hpin] at hp <;> cases hp
  · rcases htask with htask | htask | ⟨r, s, tag, auto, htask⟩ <;> rw [htask]
    · trivial
    · exact hpin
    · exact fun hne => absurd hpin hne

theorem blockInv_unpinned_runOn (halone : ∀ r, (G.sess r).globalXid = none) (hpin : G.pin = .none)
    (hrun : G.runOn r s = some H) : BlockInv H := by
  unfold runOn at hrun
  split_ifs at hrun
  · obtain ⟨v, -, -, hpin', -, -, htask⟩ := runSession_eq hrun
    exact blockInv_unpinned (alone_runSession halone hrun) (hpin'.trans hpin)
      (.inr (.inr ⟨_, _, _, _, htask⟩))
  · cases hrun
    exact blockInv_unpinned halone hpin (.inr (.inl rfl))

theorem BlockInv.answer_unpinned (h : BlockInv G) (hpin : G.pin = .none) (rep : Reply) :
    BlockInv (G.answer rep) := blockInv_unpinned h.alone hpin (.inl rfl)

def isBegin : Statement Row → Bool
  | .begin _ => true
  | _ => false

/-- The statement stays on the session of the block: it names no range but the home, and in a block
not yet pinned a range that this node leads. -/
def Gateway.StaysHome (G : Gateway Row) (pinning : Option RangeId) : Pin → Prop
  | .none => True
  | .opened => G.leads 0 = true ∧
      ∀ r ∈ pinning, G.leads r = true ∧ (r = 0 ∨ G.block.erred = false)
  | .range p => G.leads p = true ∧ ∀ r ∈ pinning, r = p
  | .global _ _ => False

instance (G : Gateway Row) (pinning : Option RangeId) (pin : Pin) :
    Decidable (G.StaysHome pinning pin) := by
  induction pin using Pin.casesOn <;> unfold Gateway.StaysHome <;> infer_instance

/-- No answer of the router's own in the block: the statement has a target, is let through by the
gate and stays at home. -/
def Gateway.Admits (G : Gateway Row) (s : Statement Row) : Except RouterError (Option RangeId) → Prop
  | .error _ => G.pin = .none
  | .ok pinning => (isBegin s = true → G.leads 0 = true) ∧
      (G.pin ≠ .none → G.gated pinning s = false ∧ G.StaysHome pinning G.pin)

instance (G : Gateway Row) (s : Statement Row) (res : Except RouterError (Option RangeId)) :
    Decidable (G.Admits s res) := by
  unfold Gateway.Admits
  split <;> infer_instance

def Task.closes : Task Row → Bool
  | .session _ .commit _ _ | .session _ .rollback _ _ => true
  | _ => false

def isRefusal : Act Row → Bool
  | .apply false => true
  | _ => false

/-- The steps of a connection whose blocks stay on one range that this node leads all the time. -/
def Gateway.Contained (G : Gateway Row) : GatewayAct Row → Prop
  | .dispatch s => G.Admits s s.pinningRange
  | .work a => isRefusal a = true → G.task.closes = false
  | .replicate _ _ => False
  | .lead r leads _ => G.leads r = true → leads = true
  | .resume | .globalBegun _ | .remoteReturned _ | .decided _ | .other _ _ => True

instance (G : Gateway Row) (act : GatewayAct Row) : Decidable (G.Contained act) := by
  induction act using GatewayAct.casesOn <;> unfold Gateway.Contained <;> infer_instance

theorem ensureBegan_eq (halone : ∀ r, (G.sess r).globalXid = none) (h : G.ensureBegan r = some H) :
    (H.sess r).txn ≠ .idle ∧ (∀ r, (H.sess r).globalXid = none) ∧
      (∀ r' ≠ r, H.sess r' = G.sess r') ∧ (Failed (G.sess r) → Failed (H.sess r)) ∧
      H.pin = G.pin ∧ H.block = G.block ∧ H.leads = G.leads := by
  unfold ensureBegan at h
  split at h
  · rename_i hidle
    obtain ⟨v, hv, rfl⟩ := call_eq_some h
    have hgx : v.self.globalXid = none := globalXid_step rfl rfl hv (halone r)
    have hin := (inBlock_call (s := .begin false) rfl (halone r) (.inr ⟨_, rfl⟩)
      ⟨nofun, nofun⟩ hv).1
    refine ⟨?_, ?_, ?_, ?_, rfl, rfl, rfl⟩
    · simpa [SqlEngine.set] using hin.alive
    · intro r'
      rw [sess_setRange]
      by_cases hr : r' = r
      · simpa [hr, SqlEngine.set] using hgx
      · rw [update_of_ne hr]
        exact halone r'
    · intro r' hr
      rw [sess_setRange, update_of_ne hr]
    · rintro ⟨c, hc⟩
      rw [hidle] at hc
      cases hc
  · rename_i hne
    cases h
    exact ⟨hne, halone, fun _ _ => rfl, id, rfl, rfl, rfl⟩

theorem ne_close_of_routed (h : s.routed = true) : s ≠ .commit ∧ s ≠ .rollback := by
  constructor <;> rintro rfl <;> cases h

theorem Gateway.StaysHome.leads {p : Option RangeId} (h : G.StaysHome p G.pin)
    (hne : G.pin ≠ .none) : G.leads G.pin.home = true := by
  cases hpin : G.pin <;> rw [hpin] at h
  case none => exact absurd hpin hne
  case global => exact h.elim
  all_goals exact h.1

theorem BlockInv.ran (h : BlockInv G) {p : Option RangeId} (hs : s.routed = true)
    (hok : G.pin ≠ .none → G.StaysHome p G.pin) (hpin : G.pin = .none ∨ r = G.pin.home)
    (hrun : G.runOn r s = some H) : BlockInv H := by
  by_cases hne : G.pin = .none
  · exact blockInv_unpinned_runOn h.alone hne hrun
  obtain rfl := hpin.resolve_left hne
  simp only [runOn, (hok hne).leads hne, if_true] at hrun
  exact blockInv_runSession h.alone h.single rfl (.inl (h.alive hne))
    (ne_close_of_routed hs) (h.failed hne)
    (fun p hp hp0 => h.root (.inl ⟨p, hp, hp0⟩)) hrun

theorem BlockInv.pinned (h : BlockInv G) (hready : G.task = .ready) (hs : s.routed = true)
    (hpin : G.pin = .opened) (hok : G.StaysHome (some r) .opened) {K : Gateway Row}
    (hK : ensureBegan { G with pin := .range r } r = some K) (hrun : K.runOn r s = some H) :
    BlockInv H := by
  have hne : G.pin ≠ .none := by simp [hpin]
  obtain ⟨hlead, hr⟩ := hok.2 r rfl
  obtain ⟨hopen, halone, hothers, hkeep, hpinK, hblockK, hleadsK⟩ :=
    ensureBegan_eq (G := { G with pin := .range r }) h.alone hK
  have hpinK' : K.pin = .range r := hpinK
  simp only [runOn, hleadsK, hlead, if_true] at hrun
  refine blockInv_runSession halone (by simp [hpinK']) (by rw [hpinK']; rfl) (.inl hopen)
    (ne_close_of_routed hs) ?_ ?_ hrun
  · intro herred
    have hfailed := h.failed hne (hblockK ▸ herred)
    rw [hpin] at hfailed
    rcases hr with rfl | hno
    · exact hkeep hfailed
    · rw [hblockK, hno] at herred
      cases herred
  · intro p hp hp0
    obtain rfl : r = p := by simpa [hpinK'] using hp
    rw [hothers 0 (Ne.symm hp0)]
    exact h.root (.inr ⟨hpin, hr.resolve_left hp0, hready⟩)

theorem BlockInv.nested (h : BlockInv G) (hne : G.pin ≠ .none) {rr : Bool}
    (hrun : G.runSession 0 (.begin rr) = some H) : BlockInv H := by
  by_cases hhome : (0 : RangeId) = G.pin.home
  · refine blockInv_runSession h.alone h.single hhome (.inr ⟨rr, rfl⟩) ⟨nofun, nofun⟩ ?_ ?_ hrun
    · rw [hhome]
      exact h.failed hne
    · exact fun p hp hp0 => h.root (.inl ⟨p, hp, hp0⟩)
  · -- The block is pinned elsewhere, and the session of range 0 only has its BEGIN repeated.
    obtain ⟨p, hp⟩ : ∃ p, G.pin = .range p := by
      cases hpin : G.pin with
      | range p => exact ⟨p, rfl⟩
      | _ =>
        rw [hpin] at hhome
        exact absurd rfl hhome
    have hp0 : p ≠ 0 := by
      rw [hp] at hhome
      exact Ne.symm hhome
    obtain ⟨c, hc⟩ := h.root (.inl ⟨p, hp, hp0⟩)
    have halone := alone_runSession h.alone hrun
    obtain ⟨v, hv, hsess, hpin, hblock, -, htask⟩ := runSession_eq hrun
    have hself : v.self.txn = .inTransaction c ∧ v.self.pc = .ready ∧ v.self.err = none := by
      have hready := ready_of_call hv
      simp only [Statement.act, Session.step, View.begin, hready,
        show ((G.ranges 0).engine.view own).self.txn = .inTransaction c from hc] at hv
      cases hv
      exact ⟨rfl, rfl, rfl⟩
    have hzero : H.sess 0 = v.self := by
      rw [hsess, update_self]
      rfl
    have hhomeH : H.sess H.pin.home = G.sess G.pin.home := by
      rw [hsess, hpin, hp]
      exact update_of_ne hp0 _ _
    refine ⟨halone, ?_, ?_, ?_, ?_, ?_⟩
    · rw [hpin]
      exact h.single
    · intro _
      rw [hhomeH]
      exact h.alive hne
    · intro _ herred
      rw [hhomeH]
      exact h.failed hne (hblock ▸ herred)
    · intro _
      rw [hzero]
      exact ⟨c, hself.1⟩
    · rw [htask]
      refine fun _ => .inr ⟨rfl, ?_⟩
      rw [hzero]
      exact ⟨⟨c, hself.1⟩, hself.2⟩

theorem BlockInv.session (h : BlockInv G) (hr : G.awaited = some r) :
    (∃ s tag auto, G.task = .session r s tag auto) ∧
      (G.pin ≠ .none → r = G.pin.home ∧ InBlock (G.sess r) ∨
        r = 0 ∧ Opened (G.sess 0) ∧ (G.sess 0).pc = .ready ∧ (G.sess 0).err = none) := by
  have ht := h.task
  unfold awaited at hr
  cases hG : G.task <;> rw [hG] at hr ht
  case session r' s tag auto =>
    cases hr
    exact ⟨⟨s, tag, auto, rfl⟩, ht⟩
  all_goals first | exact ht.elim | cases hr

theorem BlockInv.work (h : BlockInv G) (hr : G.awaited = some r) (ha : isInternal a = true)
    (hcall : G.call r a = some H) : BlockInv H := by
  obtain ⟨v, hv, hsess, hpin, htask⟩ := call_sess hcall
  obtain ⟨v', -, rfl⟩ := call_eq_some hcall
  obtain ⟨⟨s, tag, auto, hsession⟩, hcase⟩ := h.session hr
  have hgx : v.self.globalXid = none :=
    globalXid_step rfl (by cases a <;> first | rfl | cases ha) hv (h.alone r)
  -- In a block the awaited session is the home one; the other one has nothing left to do.
  have hblock : G.pin ≠ .none → r = G.pin.home ∧ InBlock v.self ∧
      (Failed (G.sess r) → Failed v.self) := by
    intro hne
    rcases hcase hne with ⟨hhome, hin⟩ | ⟨rfl, -, hidle, -⟩
    · exact ⟨hhome, InBlock.work rfl ha hin hv⟩
    · exact absurd hidle (pc_ne_ready_of_internal ha hv)
  refine ⟨?_, h.single, ?_, ?_, ?_, ?_⟩
  · intro r'
    rw [hsess]
    by_cases hr' : r' = r
    · rw [hr', update_self]
      exact hgx
    · rw [update_of_ne hr']
      exact h.alone r'
  · intro hne
    obtain ⟨hhome, hin, -⟩ := hblock hne
    rw [hsess, hpin, ← hhome, update_self]
    exact hin.alive
  · intro hne herred
    obtain ⟨hhome, -, hkeep⟩ := hblock hne
    rw [hsess, hpin, ← hhome, update_self]
    refine hkeep ?_
    rw [hhome]
    exact h.failed hne herred
  · rintro (⟨p, hp, hp0⟩ | ⟨-, -, hready⟩)
    · have hne : G.pin ≠ .none := by
        rw [show G.pin = .range p from hp]
        nofun
      have hr0 : (0 : RangeId) ≠ r := by
        rw [(hblock hne).1, show G.pin = .range p from hp]
        exact Ne.symm hp0
      rw [hsess, update_of_ne hr0]
      exact h.root (.inl ⟨p, hp, hp0⟩)
    · rw [htask, hsession] at hready
      cases hready
  · rw [htask, hsession]
    intro hne
    obtain ⟨hhome, hin, -⟩ := hblock hne
    refine .inl ⟨by rw [hpin]; exact hhome, ?_⟩
    rw [hsess, update_self]
    exact hin

theorem BlockInv.returned (h : BlockInv G) {rep : Reply} (hr : G.awaited = some r)
    (hres : (∃ e, (G.sess r).err = some e ∧ rep = .error (.session e)) ∨ (G.sess r).err = none ∧
      ∃ s tag auto, G.task = .session r s tag auto ∧ rep = .command tag) :
    BlockInv (G.answer rep) := by
  by_cases hpin : G.pin = .none
  · exact h.answer_unpinned hpin _
  have hcase := (h.session hr).2 hpin
  rcases hres with ⟨e, herr, rfl⟩ | ⟨herr, s, tag, auto, -, rfl⟩
  · -- The session that returns an error has failed the block.
    have hhome : Failed (G.sess G.pin.home) := by
      rcases hcase with ⟨rfl, hin⟩ | ⟨rfl, -, -, hnone⟩
      · exact (hin.txn.resolve_left fun hopen => by simp [herr] at hopen).1
      · rw [hnone] at herr
        cases herr
    refine ⟨h.alone, h.single, h.alive, fun _ _ => hhome, ?_, trivial⟩
    rintro (hp | ⟨-, herred, -⟩)
    · exact h.root (.inl hp)
    · simp [answer, Reply.isError, hpin] at herred
  · refine ⟨h.alone, h.single, h.alive, ?_, ?_, trivial⟩
    · exact fun hne herred => h.failed hne (by simpa [answer, Reply.isError] using herred)
    · rintro (hp | ⟨hopened, -, -⟩)
      · exact h.root (.inl hp)
      · rcases hcase with ⟨rfl, hin⟩ | ⟨-, hopen, -, -⟩
        · rw [show G.pin = .opened from hopened] at hin herr
          exact (hin.txn.resolve_right fun hf => hf.2 herr).1
        · exact hopen

theorem BlockInv.congr (h : BlockInv G) (hsess : H.sess = G.sess) (hpin : H.pin = G.pin)
    (hblock : H.block = G.block) (htask : H.task = G.task) : BlockInv H := by
  obtain ⟨h1, h2, h3, h4, h5, h6⟩ := h
  constructor <;> simp only [hsess, hpin, hblock, htask] <;> assumption

theorem blockInv_step (h : BlockInv G) (hok : G.Contained act) (hstep : G.step act = some H) :
    BlockInv H := by
  have hpending := h.task
  cases took_of_step hstep with
  | refused _ hs =>
    refine h.answer_unpinned ?_ _
    rcases hs with hs | ⟨p, hs, hgate⟩
    · simpa only [Contained, hs, Admits] using hok
    · simp only [Contained, hs] at hok
      by_contra hne
      rw [(hok.2 hne).1] at hgate
      cases hgate
  | @opened rr _ _ hpin hrun =>
    simp only [runOn, hok.1 rfl, if_true] at hrun
    exact blockInv_runSession (G := { G with pin := .opened, block := ⟨rr, false⟩ }) h.alone nofun
      rfl (.inr ⟨rr, rfl⟩) ⟨nofun, nofun⟩ nofun nofun hrun
  | nested _ hpin hrun =>
    simp only [runOn, hok.1 rfl, if_true] at hrun
    exact h.nested hpin hrun
  | closed _ _ _ hrun =>
    -- The pin is taken before the session is asked.
    exact blockInv_unpinned_runOn (G := { G with pin := .none }) h.alone rfl hrun
  | decides _ _ hpin | staged _ _ _ hpin => exact absurd hpin (h.single _ _)
  | ran _ hs hp _ hpin hrun =>
    simp only [Contained, hp] at hok
    exact h.ran hs (fun hne => (hok.2 hne).2) hpin hrun
  | pinned hready hs hp hpin hK hrun =>
    simp only [Contained, hp] at hok
    exact h.pinned hready hs hpin (hpin ▸ (hok.2 (by simp [hpin])).2) hK hrun
  | @escalated s p r _ hs hp hpin hr =>
    simp only [Contained, hp] at hok
    have hhome := (hok.2 (by cases p <;> simp [hpin])).2
    rw [hpin] at hhome
    cases p with
    | none => simp [(hhome.2 r rfl).1] at hr
    | some => exact absurd (hhome.2 r rfl) hr
  | worked ha hr hcall => exact h.work hr ha hcall
  | returned hr _ hres => exact h.returned hr hres
  | resumed ht | joined ht | begun ht | enlists ht | unbegun ht | undecided ht | released ht =>
    rw [ht] at hpending
    exact hpending.elim
  | remote ht =>
    rw [ht] at hpending
    exact h.answer_unpinned hpending _
  | other ha hE =>
    refine h.congr ?_ rfl rfl rfl
    rw [sess_setRange, other_sess ha hE, update_eq_self]
  | replicate => exact hok.elim
  | lead => exact h.congr rfl rfl rfl rfl

theorem blockInv_initial (canEscalate : Bool) :
    BlockInv (initial canEscalate : Gateway Row) :=
  blockInv_unpinned (fun _ => rfl) rfl (.inl rfl)

theorem tidy_gateway_step (h : ∀ r, Tidy (G.ranges r)) (hok : G.Contained act)
    (hstep : G.step act = some H) (r : RangeId) : Tidy (H.ranges r) := by
  refine (advances_step hstep ?_).tidy (h r)
  cases act with
  | replicate => exact hok.elim
  | _ => rfl

def RollsBack (xid : Option Xid) (kv : Store Row) (u : Sess Row) : Prop :=
  u.err = none ∧
    match u.pc with
    | .committing b _ after => after = .close false ∧
        ∃ x, xid = some x ∧ b = .record x .aborted none ∧ (kv.clogGet x).isTerminal = false
    | .finishing y _ | .releasing y _ => xid = some y ∧ kv.clogGet y = .aborted
    | .ready => ∀ x, xid = some x → kv.clogGet x = .aborted
    | .starting _ _ _ | .scanning _ | .looping _ | .acquiring _ _ | .locked _ _
    | .preparing _ => False

/-- COMMIT of a failed block, from its dispatch in `G₀` to its answer. -/
structure Closing (p : RangeId) (xid : Option Xid) (G₀ G : Gateway Row) : Prop where
  tidy : ∀ r, Tidy (G.ranges r)
  others : ∀ r ≠ p, (G.sess r).globalXid = none ∧
    (G.sess r).txn.localXid = (G₀.sess r).txn.localXid
  home : (∃ auto, G.task = .session p .commit .rollback auto) ∧
      RollsBack xid (G.ranges p).engine.kv (G.sess p) ∨
    G.task = .ready ∧ G.reply = some (.command .rollback) ∧
      ∀ x, xid = some x → (G.ranges p).engine.kv.clogGet x = .aborted

theorem rollsBack_commit {c : TxnCtx} (hc : v.self.txn = .failed c)
    (hfresh : ∀ x, c.xid = some x → v.kv.clogGet x = .inProgress)
    (h : step env v .commit = some v') : RollsBack c.xid v'.kv v'.self := by
  have hready := ready_of_call (s := .commit) h
  obtain ⟨kv, pa, lm, seq, txn, gx, pc, err⟩ := v
  simp only at hc hready hfresh
  subst hc hready
  cases h
  refine ⟨rfl, ?_⟩
  cases hx : c.xid with
  | none => simp [abortCtx, hx]
  | some x =>
    simp only [abortCtx, hx]
    refine ⟨trivial, x, rfl, rfl, ?_⟩
    rw [hfresh x hx]
    rfl

theorem BlockInv.close (h : BlockInv G) (htidy : ∀ r, Tidy (G.ranges r)) (hne : G.pin ≠ .none)
    (herred : G.block.erred = true) (hok : G.Contained (.dispatch .commit))
    (hstep : G.step (.dispatch .commit) = some H) :
    Closing G.pin.home (G.sess G.pin.home).txn.localXid G H := by
  have htidy' := tidy_gateway_step htidy hok hstep
  obtain ⟨c, hc⟩ := h.failed hne herred
  have hrun : ({ G with pin := .none } : Gateway Row).runSession G.pin.home .commit = some H := by
    cases took_of_step hstep with
    | refused _ hs =>
      rcases hs with hs | ⟨p, -, hgate⟩
      · cases hs
      · cases hgate
    | closed _ _ _ hrun => simpa [runOn, (hok.2 hne).2.leads hne] using hrun
    | decides _ _ hpin => exact absurd hpin (h.single _ _)
    | ran _ hs | pinned _ hs | escalated _ hs | staged _ hs => cases hs
  have halone := alone_runSession (G := { G with pin := .none }) h.alone hrun
  obtain ⟨K, hK, hHK⟩ := map_eq_some_iff.mp hrun
  obtain ⟨v, hv, rfl⟩ := call_eq_some hK
  have hsess : H.sess = Function.update G.sess G.pin.home v.self := by
    rw [← hHK]
    change (setRange _ _ _).sess = _
    rw [sess_setRange]
    simp only [SqlEngine.set, update_self]
    rfl
  have hkv : (H.ranges G.pin.home).engine.kv = v.kv := by
    rw [← hHK]
    change (Function.update G.ranges G.pin.home _ G.pin.home).engine.kv = v.kv
    rw [update_self]
    rfl
  have htag : Statement.tag (G.sess G.pin.home).txn (.commit : Statement Row) = .rollback := by
    rw [hc]
    rfl
  refine ⟨htidy', ?_, .inl ⟨⟨G.autoXid G.pin.home .commit, ?_⟩, ?_⟩⟩
  · intro r hr
    refine ⟨halone r, ?_⟩
    rw [hsess, update_of_ne hr]
  · rw [← hHK, ← htag]
    rfl
  · rw [hkv, hsess, update_self, hc]
    refine rollsBack_commit (v := (G.ranges G.pin.home).engine.view own) hc (fun x hx => ?_) hv
    refine (htidy G.pin.home).undecided own x (h.alone G.pin.home) ?_
    change (G.sess G.pin.home).txn.localXid = some x
    rw [hc]
    exact hx

theorem RollsBack.work (hmode : env.cfg.mode = .replicated) (ha : isInternal a = true)
    (hok : isRefusal a = false) (h : RollsBack xid v.kv v.self)
    (hstep : step env v a = some v') : RollsBack xid v'.kv v'.self := by
  obtain ⟨kv, pa, lm, seq, txn, gx, pc, err⟩ := v
  obtain ⟨herr, hpc⟩ := h
  cases pc with
  | ready => exact absurd rfl (pc_ne_ready_of_internal ha hstep)
  | committing b epoch after =>
    obtain ⟨rfl, x, hx, rfl, hfresh⟩ := hpc
    cases a <;> cases hstep
    rename_i ok
    cases ok with
    | false => cases hok
    | true =>
      refine ⟨herr, hx, ?_⟩
      change (commitBatch _ kv (Batch.record x .aborted none).ops).clogGet x = .aborted
      rw [hmode, commitBatch, clogGet_applyBatch_ops seqOnly_nil]
      simp [Batch.record, keepTerminal, hfresh]
  | finishing =>
    cases a <;> cases hstep
    exact ⟨herr, hpc⟩
  | releasing =>
    cases a <;> cases hstep
    exact ⟨herr, fun y hy => by cases hpc.1.symm.trans hy; exact hpc.2⟩
  | _ => exact hpc.elim

theorem RollsBack.other {E E' : RangeEngine Row} {act : EngineAct Row} (htidy : Tidy E)
    (ha : EngineAct.isOther act = true) (hstep : E.step act = some E')
    (h : RollsBack xid E.engine.kv (E.engine.sessions own)) :
    RollsBack xid E'.engine.kv (E.engine.sessions own) := by
  have hkept : ∀ x, E.engine.kv.clogGet x = .aborted → E'.engine.kv.clogGet x = .aborted :=
    fun x hx => Advances.clogGet_terminal (.single (.inl ⟨act, hstep⟩)) rfl hx
  obtain ⟨herr, hpc⟩ := h
  refine ⟨herr, ?_⟩
  cases hp : (E.engine.sessions own).pc <;> rw [hp] at hpc
  case ready => exact fun x hx => hkept x (hpc x hx)
  case finishing y ack | releasing y ack => exact ⟨hpc.1, hkept y hpc.2⟩
  case committing b epoch after =>
    obtain ⟨hafter, x, hx, rfl, hfresh⟩ := hpc
    refine ⟨hafter, x, hx, rfl, ?_⟩
    have hactive : activeXid (E.engine.sessions own) = some x := by
      unfold activeXid
      rw [hp]
      rfl
    have hclog : E'.engine.kv.clogGet x = E.engine.kv.clogGet x := by
      cases act with
      | call s =>
        have hs : s ≠ own := by simpa [EngineAct.isOther] using ha
        obtain ⟨-, v, -, heng, hkv⟩ := call_cases hstep
        rw [heng]
        change v.kv.clogGet x = _
        rcases hkv with hkv | ⟨b, hb, hkv⟩ <;> rw [hkv]
        refine clogGet_applyBatch_of_ne (htidy.applying hb).1.seqOps fun hbx => hs ?_
        exact htidy.distinct s own x (hbx ▸ (htidy.applying hb).2.1) hactive
      | decide | counter =>
        cases hstep
        rfl
    rw [hclog]
    exact hfresh
  all_goals exact hpc.elim

def GatewayAct.isDispatch : GatewayAct Row → Bool
  | .dispatch _ => true
  | _ => false

theorem closing_step (h : Closing p xid G₀ G) (hact : GatewayAct.isDispatch act = false)
    (hok : G.Contained act) (hstep : G.step act = some H) : Closing p xid G₀ H := by
  have htidy := tidy_gateway_step h.tidy hok hstep
  cases took_of_step hstep with
  | @worked a r _ ha hr hcall =>
    rcases h.home with ⟨⟨auto, htask⟩, hrolls⟩ | ⟨htask, -⟩
    · obtain rfl : p = r := by simpa [awaited, htask] using hr
      have hrefusal : isRefusal a = false := by
        cases hrefused : isRefusal a with
        | false => rfl
        | true =>
          have := hok hrefused
          rw [htask] at this
          cases this
      obtain ⟨v, hv, rfl⟩ := call_eq_some hcall
      refine ⟨htidy, ?_, .inl ⟨⟨auto, htask⟩, ?_⟩⟩
      · intro r' hr'
        rw [sess_setRange, update_of_ne hr']
        exact h.others r' hr'
      · simpa [setRange, sess, SqlEngine.set] using
          RollsBack.work rfl ha hrefusal hrolls hv
    · simp [awaited, htask] at hr
  | returned hr hpc hres =>
    rcases h.home with ⟨⟨auto, htask⟩, herr, hrolls⟩ | ⟨htask, -⟩
    · obtain rfl : p = _ := by simpa [awaited, htask] using hr
      rw [hpc] at hrolls
      rcases hres with ⟨e, he, -⟩ | ⟨-, s, tag, auto', hsame, rfl⟩
      · rw [herr] at he
        cases he
      · rw [htask] at hsame
        cases hsame
        exact ⟨htidy, h.others, .inr ⟨rfl, rfl, hrolls⟩⟩
    · simp [awaited, htask] at hr
  | @other r a E ha hE =>
    have hsess : (G.setRange r E).sess = G.sess := by
      rw [sess_setRange, other_sess ha hE, update_eq_self]
    refine ⟨htidy, ?_, ?_⟩
    · rw [hsess]
      exact h.others
    · rw [hsess]
      by_cases hr : p = r
      · subst hr
        simp only [setRange, update_self]
        refine h.home.imp (And.imp id fun hrolls => RollsBack.other (h.tidy p) ha hE hrolls) ?_
        refine And.imp id (And.imp id fun hx x hxid => ?_)
        exact Advances.clogGet_terminal (.single (.inl ⟨a, hE⟩)) rfl (hx x hxid)
      · simp only [setRange, update_of_ne hr]
        exact h.home
  | replicate => exact hok.elim
  | lead => exact ⟨htidy, h.others, h.home⟩
  | resumed ht | joined ht | begun ht | enlists ht | unbegun ht | remote ht | undecided ht
  | released ht => rcases h.home with ⟨⟨auto, htask⟩, -⟩ | ⟨htask, -⟩ <;> simp [ht] at htask
  | _ => cases hact

/-- How many steps the session still has to take. -/
def toEnd : Pc Row → ℕ
  | .committing _ _ _ => 3
  | .finishing _ _ => 2
  | .releasing _ _ => 1
  | _ => 0

theorem closing_work (h : Closing p xid G₀ G) {auto : Option Xid}
    (htask : G.task = .session p .commit .rollback auto) (ha : isInternal a = true)
    (hok : isRefusal a = false)
    (hv : step (G.ranges p).env ((G.ranges p).engine.view own) a = some v)
    (hlt : toEnd v.self.pc < toEnd (G.sess p).pc) :
    ∃ a H, G.step (.work a) = some H ∧ Closing p xid G₀ H ∧
      toEnd (H.sess p).pc < toEnd (G.sess p).pc := by
  have hstep : G.step (.work a) =
      some (G.setRange p { G.ranges p with engine := (G.ranges p).engine.set own v }) := by
    simp only [Gateway.step, ha, if_true, awaited, htask, bind_some, call, RangeEngine.step,
      SqlEngine.step, hv, map_some]
  refine ⟨a, _, hstep, closing_step h rfl ?_ hstep, ?_⟩
  · intro hrefused
    rw [hok] at hrefused
    cases hrefused
  · simpa [SqlEngine.set] using hlt

theorem closing_next (h : Closing p xid G₀ G) {auto : Option Xid}
    (htask : G.task = .session p .commit .rollback auto) (hbusy : (G.sess p).pc ≠ .ready)
    (hrolls : RollsBack xid (G.ranges p).engine.kv (G.sess p)) :
    ∃ a H, G.step (.work a) = some H ∧ Closing p xid G₀ H ∧
      toEnd (H.sess p).pc < toEnd (G.sess p).pc := by
  have hplace := hrolls.2
  cases hpc : (G.sess p).pc <;> rw [hpc] at hplace <;> rw [← hpc] <;>
    have hview : ((G.ranges p).engine.view own).self.pc = _ := hpc
  case ready => exact absurd hpc hbusy
  case committing =>
    obtain ⟨rfl, -⟩ := hplace
    refine closing_work (a := .apply true) h htask rfl rfl
      (by simp only [Session.step, View.apply, hview]; rfl) ?_
    rw [hpc]
    exact Nat.lt_succ_self 2
  case finishing =>
    refine closing_work (a := .finish) h htask rfl rfl
      (by simp only [Session.step, View.finish, hview]; rfl) ?_
    rw [hpc]
    exact Nat.lt_succ_self 1
  case releasing =>
    refine closing_work (a := .release) h htask rfl rfl
      (by simp only [Session.step, View.release, hview]; rfl) ?_
    rw [hpc]
    exact Nat.lt_succ_self 0
  all_goals exact hplace.elim

theorem closing_ends (h : Closing p xid G₀ G) :
    ∃ rest H, exec step G rest = some H ∧ H.task = .ready := by
  induction hn : toEnd (G.sess p).pc using Nat.strongRecOn generalizing G with
  | ind n ih =>
    rcases h.home with ⟨⟨auto, htask⟩, hrolls⟩ | ⟨htask, -⟩
    · by_cases hpc : (G.sess p).pc = .ready
      · refine ⟨[.resume], G.answer (.command .rollback), ?_, rfl⟩
        simp only [exec, Gateway.step, resume, htask, hpc, hrolls.1, bind_some]
      · obtain ⟨a, H, hH, hclosing, hlt⟩ := closing_next h htask hpc hrolls
        obtain ⟨rest, K, hrest, hK⟩ := ih _ (hn ▸ hlt) hclosing rfl
        exact ⟨.work a :: rest, K, exec_cons.mpr ⟨H, hH, hrest⟩, hK⟩
    · exact ⟨[], G, rfl, htask⟩

theorem clogGet_step_terminal (hstep : G.step act = some H) {x : Xid} {st : XidStatus}
    (hst : st.isTerminal = true) (hx : (G.ranges r).engine.kv.clogGet x = st) :
    (H.ranges r).engine.kv.clogGet x = st := by
  cases hrep : GatewayAct.replicates r act with
  | false => exact (advances_step hstep hrep).clogGet_terminal hst hx
  | true =>
    cases act with
    | replicate r' =>
      obtain rfl : r' = r := of_decide_eq_true hrep
      simp only [Gateway.step] at hstep
      split_ifs at hstep
      cases hstep
      simp only [setRange, update_self]
      rw [clogGet_applyBatch_terminal (by rw [hx]; exact hst), hx]
    | _ => cases hrep

/-- COMMIT of a block in which a statement returned an error reports ROLLBACK and leaves nothing
committed, for ever on the range of the block; and it can always return. -/
theorem failed_block_rolled_back {canEscalate : Bool} {acts later : List (GatewayAct Row)}
    {G H : Gateway Row} (h : exec step (.initial canEscalate) acts = some G)
    (hpin : G.pin ≠ .none) (herred : G.block.erred = true)
    (hcommit : exec step G (.dispatch .commit :: later) = some H)
    (hok : Runs.Along step Gateway.Contained (.initial canEscalate)
      (acts ++ .dispatch .commit :: later))
    (hlater : ∀ act ∈ later, GatewayAct.isDispatch act = false) :
    (∃ rest K, exec step H rest = some K ∧ K.task = .ready) ∧
    (H.task = .ready → H.reply = some (.command .rollback) ∧
      (∀ r x, (G.sess r).txn.localXid = some x →
        isCommitted (H.ranges r).engine.kv (H.ranges r).glob x = false) ∧
      ∀ after K, exec step H after = some K →
        ∀ x, (G.sess G.pin.home).txn.localXid = some x →
          (K.ranges G.pin.home).engine.kv.clogGet x = .aborted) := by
  obtain ⟨hacts, hend⟩ := along_append hok h
  have hinv : BlockInv G ∧ ∀ r, Tidy (G.ranges r) :=
    exec_invariant (I := fun G : Gateway Row => BlockInv G ∧ ∀ r, Tidy (G.ranges r))
      (fun _ _ _ hI hs hstep => ⟨blockInv_step hI.1 hs hstep, tidy_gateway_step hI.2 hs hstep⟩)
      ⟨blockInv_initial _, fun _ => tidy_initial⟩ hacts h
  obtain ⟨G₁, hG₁, hrest⟩ := exec_cons.mp hcommit
  have hclosing : Closing G.pin.home (G.sess G.pin.home).txn.localXid G G₁ :=
    hinv.1.close hinv.2 hpin herred hend.1 hG₁
  have hclosed : Closing G.pin.home (G.sess G.pin.home).txn.localXid G H := by
    have halong : Along step (fun (G : Gateway Row) act => G.Contained act ∧
        GatewayAct.isDispatch act = false) G₁ later :=
      along_imp (fun act hact _ hs => ⟨hs, hlater act hact⟩) (hend.2 G₁ hG₁)
    exact exec_invariant (fun _ _ _ hI hs hstep => closing_step hI hs.2 hs.1 hstep)
      hclosing halong hrest
  refine ⟨closing_ends hclosed, fun hready => ?_⟩
  obtain ⟨hreply, haborted⟩ : H.reply = some (.command .rollback) ∧
      ∀ x, (G.sess G.pin.home).txn.localXid = some x →
        (H.ranges G.pin.home).engine.kv.clogGet x = .aborted := by
    rcases hclosed.home with ⟨⟨auto, htask⟩, -⟩ | ⟨-, hreply, haborted⟩
    · rw [hready] at htask
      cases htask
    · exact ⟨hreply, haborted⟩
  refine ⟨hreply, fun r x hx => ?_, fun after K hK x hx => ?_⟩
  · unfold isCommitted
    by_cases hr : r = G.pin.home
    · subst hr
      rw [haborted x hx]
    · obtain ⟨hnone, hlocal⟩ := hclosed.others r hr
      rw [(hclosed.tidy r).undecided own x hnone (hlocal.trans hx)]
  · have hany : Along step (fun _ _ => True) H after :=
      along_trivial (fun _ _ => trivial) _ _
    exact exec_invariant
      (I := fun K : Gateway Row => (K.ranges G.pin.home).engine.kv.clogGet x = .aborted)
      (fun _ _ _ hI _ hstep => clogGet_step_terminal hstep rfl hI) (haborted x hx) hany hK

section Blocks

def unroutedBlock : List (GatewayAct ℕ) :=
  leadBoth ++ atOnce (.begin false) ++ insertOn 0 [] ++ [.dispatch (.exec none insertOne)]

def failedBlock : List (GatewayAct ℕ) :=
  leadBoth ++ atOnce (.begin false) ++ insertOn 1 [] ++ atOnce (.query (some (some 1)) true)

end Blocks

/-- The statement without a target is answered by the router alone; COMMIT then commits. -/
theorem failed_block_committed :
    ∃ G H : Gateway ℕ, exec step (.initial true) unroutedBlock = some G ∧
      G.pin ≠ .none ∧ G.block.erred = true ∧ (G.sess 0).txn.localXid = some 1 ∧
      exec step G commitPinned = some H ∧ H.task = .ready ∧
      H.reply = some (.command .commit) ∧ (H.ranges 0).engine.kv.clogGet 1 = .committed := by
  obtain ⟨G, hG, ⟨hpin, herred, hxid⟩, H, hH, hready, hreply⟩ :
      ∃ G ∈ exec step (.initial true) unroutedBlock,
        (G.pin ≠ .none ∧ G.block.erred = true ∧ (G.sess 0).txn.localXid = some 1) ∧
        ∃ H ∈ exec step G commitPinned, H.task.isReady = true ∧
          H.reply = some (.command .commit) ∧
          (H.ranges 0).engine.kv.clogGet 1 = .committed := by decide +kernel
  exact ⟨G, H, hG, hpin, herred, hxid, hH, Task.eq_ready hready, hreply⟩

theorem failed_block_rolled_back_on_one :
    ∃ G H : Gateway ℕ, exec step (.initial true) failedBlock = some G ∧
      exec step G commitPinned = some H ∧
      H.reply = some (.command .rollback) ∧
      isCommitted (H.ranges 1).engine.kv (H.ranges 1).glob 1 = false := by
  obtain ⟨G, hG, ⟨hpin, herred, hxid⟩, H, hH, hready⟩ :
      ∃ G ∈ exec step (.initial true) failedBlock,
        (G.pin ≠ .none ∧ G.block.erred = true ∧ (G.sess 1).txn.localXid = some 1) ∧
        ∃ H ∈ exec step G commitPinned, H.task.isReady = true := by decide +kernel
  have hok : Along step Contained (.initial true)
      (failedBlock ++ commitPinned) := by decide +kernel
  have hrolled := (failed_block_rolled_back hG hpin herred hH hok
    (by simp [GatewayAct.isDispatch])).2 (Task.eq_ready hready)
  exact ⟨G, H, hG, hH, hrolled.1, hrolled.2.1 1 1 hxid⟩

end Crabgresql.Router
