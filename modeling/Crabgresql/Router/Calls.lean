import Crabgresql.Router.System

/-!
# What a call of the router does to its sessions

A call moves the router's session on one range by one step of that session; the
other clients of an engine never touch it. Only BEGIN opens a block, COMMIT and
ROLLBACK close whatever is open, and only a join enlists.
-/

namespace Crabgresql.Session

open Mvcc Kv Exec Cluster

variable {Row : Type} {env : Env} {v v' : View Row} {a : Act Row}
variable {r : RangeId}

theorem pc_ne_ready_of_internal (ha : Router.isInternal a = true) (h : step env v a = some v') :
    v.self.pc ≠ .ready := by
  intro hpc
  obtain ⟨kv, pa, lm, seq, txn, gx, pc, err⟩ := v
  simp only at hpc
  subst hpc
  cases a <;> first | exact absurd ha Bool.false_ne_true | cases h

theorem globalXid_step (hmode : env.cfg.mode = .replicated) (ha : a.enlists = false)
    (h : step env v a = some v') (hnone : v.self.globalXid = none) : v'.self.globalXid = none := by
  cases step_move hmode h with
  | stage f c rows marker hpc hw hauto htxn hrows hmarker =>
    rw [hnone] at hmarker
    exact hmarker
  | apply ok b epoch after => cases after <;> cases ok <;> exact hnone
  | joinIdle | join => cases ha
  | leave | drop => rfl
  | _ => exact hnone

theorem idle_call (hpc : v.self.pc = .ready) (hidle : v.self.txn = .idle)
    (ha : a = .select ∨ a = .commit ∨ a = .rollback ∨ ∃ w, a = .start w)
    (h : step env v a = some v') : v'.self.txn = .idle := by
  obtain ⟨kv, pa, lm, seq, txn, gx, pc, err⟩ := v
  simp only at hpc hidle
  subst hpc hidle
  rcases ha with rfl | rfl | rfl | ⟨w, rfl⟩ <;> cases h <;> rfl

theorem idle_step (hmode : env.cfg.mode = .replicated) (ha : ∀ rr, a ≠ .begin rr)
    (h : step env v a = some v') (hidle : v.self.txn = .idle) : v'.self.txn = .idle := by
  cases step_move hmode h with
  | still _ txn err hpc hx hw hplain =>
    have hint : ¬ Router.isInternal a = true := fun hint => pc_ne_ready_of_internal hint h hpc
    cases a with
    | begin rr => exact absurd rfl (ha rr)
    | select => exact idle_call hpc hidle (.inl rfl) h
    | commit => exact idle_call hpc hidle (.inr (.inl rfl)) h
    | rollback => exact idle_call hpc hidle (.inr (.inr (.inl rfl))) h
    | start w => exact idle_call hpc hidle (.inr (.inr (.inr ⟨w, rfl⟩))) h
    | join | drop => cases hplain
    | takeSnapshot | scan | next | acquire pick | recheck | propose | apply ok | finish
    | release => exact absurd rfl hint
  | alloc w autocommit txn hpc hnone htxn =>
    cases autocommit with
    | true => exact htxn
    | false =>
      obtain ⟨c, hc, -⟩ := htxn
      rw [hidle] at hc
      cases hc
  | read w x autocommit f txn hpc hx hw hauto htodo hchanges hops htxn =>
    rcases htxn with ⟨-, rfl⟩ | ⟨-, c, S, hc, -⟩
    · exact hidle
    · rw [hidle] at hc
      cases hc
  | fail =>
    change v.self.txn.fail = .idle
    rw [hidle]
    rfl
  | stage f c rows marker hpc hw hauto htxn =>
    rw [hidle] at htxn
    cases htxn
  | apply ok b epoch after =>
    cases after <;> cases ok <;> simp [Sess.returned, hidle, TxnState.fail]
  | commit | abort | leave | drop => rfl
  | _ => exact hidle

theorem idle_of_close (ha : a = .commit ∨ a = .rollback) (h : step env v a = some v') :
    v'.self.txn = .idle := by
  obtain ⟨kv, pa, lm, seq, txn, gx, pc, err⟩ := v
  rcases ha with rfl | rfl
  · simp only [step, View.commit] at h
    split at h <;> cases h <;> rfl
  · simp only [step, View.rollback] at h
    split at h <;> cases h <;> rfl

end Crabgresql.Session

namespace Crabgresql.Router

open Mvcc Kv Exec Session Engine MultiRange Cluster

variable {Row : Type} {G H : Gateway Row}

@[simp] theorem sess_setRange (G : Gateway Row) (r : RangeId) (E : RangeEngine Row) :
    (G.setRange r E).sess = Function.update G.sess r (E.engine.sessions own) := by
  funext r'
  by_cases h : r' = r
  · subst h
    simp [Gateway.sess, Gateway.setRange]
  · simp [Gateway.sess, Gateway.setRange, h]

theorem call_eq_some {a : Act Row} (h : G.call r a = some H) :
    ∃ v, Session.step (G.ranges r).env ((G.ranges r).engine.view own) a = some v ∧
      H = G.setRange r { G.ranges r with engine := (G.ranges r).engine.set own v } := by
  obtain ⟨E, hE, rfl⟩ := Option.map_eq_some_iff.mp h
  simp only [RangeEngine.step, SqlEngine.step, Option.map_eq_some_iff] at hE
  obtain ⟨e, ⟨v, hv, rfl⟩, rfl⟩ := hE
  exact ⟨v, hv, rfl⟩

theorem call_sess {a : Act Row} (h : G.call r a = some H) :
    ∃ v, Session.step (G.ranges r).env ((G.ranges r).engine.view own) a = some v ∧
      H.sess = Function.update G.sess r v.self ∧ H.pin = G.pin ∧ H.task = G.task := by
  obtain ⟨v, hv, rfl⟩ := call_eq_some h
  refine ⟨v, hv, ?_, rfl, rfl⟩
  simp [SqlEngine.set]

theorem other_sess {a : EngineAct Row} (ha : EngineAct.isOther a = true) {E : RangeEngine Row}
    (h : (G.ranges r).step a = some E) : E.engine.sessions own = G.sess r := by
  cases a with
  | call s =>
    simp only [RangeEngine.step, SqlEngine.step, Option.map_eq_some_iff] at h
    obtain ⟨e, ⟨v, hv, rfl⟩, rfl⟩ := h
    have hne : s ≠ own := by simpa [EngineAct.isOther] using ha
    exact Function.update_of_ne (Ne.symm hne) _ _
  | decide | counter =>
    cases h
    rfl

theorem other_kv {a : EngineAct Row} {E : RangeEngine Row} (h : (G.ranges r).step a = some E) :
    E.engine.kv = (G.ranges r).engine.kv ∨
      ∃ ops, E.engine.kv = applyBatch (G.ranges r).engine.kv ops := by
  cases a with
  | call =>
    obtain ⟨-, v, -, heng, hkv⟩ := call_cases h
    rw [heng]
    exact hkv.imp id fun ⟨b, _, hb⟩ => ⟨b.ops, hb⟩
  | decide | counter =>
    cases h
    exact .inl rfl

/-- The range on whose session the block lives. -/
def Pin.home : Pin → RangeId
  | .range p => p
  | .none | .opened | .global _ _ => 0

def Statement.routed : Statement Row → Bool
  | .exec _ _ | .query _ _ => true
  | .begin _ | .commit | .rollback => false

/-- What a step of the router does: the branches of `dispatch` and of what it goes on with, down to
the session that is asked. -/
inductive Gateway.Took (G : Gateway Row) : GatewayAct Row → Gateway Row → Prop
  | refused {s e} (ht : G.task = .ready)
      (hs : s.pinningRange = .error e ∨ ∃ p, s.pinningRange = .ok p ∧ G.gated p s = true) :
      Took G (.dispatch s) (G.answer (.error e))
  | opened {rr H} (ht : G.task = .ready) (hpin : G.pin = .none)
      (h : Gateway.runOn { G with pin := .opened, block := ⟨rr, false⟩ } 0 (.begin rr) = some H) :
      Took G (.dispatch (.begin rr)) H
  | nested {rr H} (ht : G.task = .ready) (hpin : G.pin ≠ .none)
      (h : G.runOn 0 (.begin rr) = some H) : Took G (.dispatch (.begin rr)) H
  | closed {s H} (ht : G.task = .ready) (hs : s = .commit ∨ s = .rollback)
      (hpin : ∀ ranges g, G.pin ≠ .global ranges g)
      (h : Gateway.runOn { G with pin := .none } G.pin.home s = some H) : Took G (.dispatch s) H
  | decides {s ranges g} (ht : G.task = .ready) (hs : s = .commit ∨ s = .rollback)
      (hpin : G.pin = .global ranges g) :
      Took G (.dispatch s) { G with pin := .none, task := .deciding ranges g }
  | ran {s p r H} (ht : G.task = .ready) (hs : s.routed = true) (hp : s.pinningRange = .ok p)
      (hr : ∀ r' ∈ p, r' = r) (hpin : G.pin = .none ∨ r = G.pin.home)
      (h : G.runOn r s = some H) : Took G (.dispatch s) H
  | pinned {s r K H} (ht : G.task = .ready) (hs : s.routed = true)
      (hp : s.pinningRange = .ok (some r)) (hpin : G.pin = .opened)
      (hK : Gateway.ensureBegan { G with pin := .range r } r = some K)
      (h : K.runOn r s = some H) : Took G (.dispatch s) H
  | escalated {s p r} (ht : G.task = .ready) (hs : s.routed = true)
      (hp : s.pinningRange = .ok (some r)) (hpin : G.pin = p.elim .opened .range)
      (hr : p.elim (G.leads r = false) (r ≠ ·)) : Took G (.dispatch s) (G.escalate p r s)
  | staged {s r ranges g H} (ht : G.task = .ready) (hs : s.routed = true)
      (hp : s.pinningRange = .ok (some r)) (hpin : G.pin = .global ranges g)
      (h : Gateway.stageOn { G with pin := .global (if r ∈ ranges then ranges else r :: ranges) g }
        r g s = some H) : Took G (.dispatch s) H
  | worked {a r H} (ha : isInternal a = true) (hr : G.awaited = some r)
      (h : G.call r a = some H) : Took G (.work a) H
  | returned {r rep} (hr : G.awaited = some r) (hpc : (G.sess r).pc = .ready)
      (h : (∃ e, (G.sess r).err = some e ∧ rep = .error (.session e)) ∨ (G.sess r).err = none ∧
        ∃ s tag auto, G.task = .session r s tag auto ∧ rep = .command tag) :
      Took G .resume (G.answer rep)
  | resumed {r s H} (ht : G.task = .joinStage r s) (hpc : (G.sess r).pc = .ready)
      (h : G.runSession r s = some H) : Took G .resume H
  | joined {p r g s H} (ht : G.task = .joinPinned p r g s) (hpc : (G.sess p).pc = .ready)
      (h : Gateway.stageOn { G with pin := .global [p, r] g } r g s = some H) : Took G .resume H
  | begun {r g s H} (ht : G.task = .beginGlobal none r s)
      (h : Gateway.stageOn { G with pin := .global [r] g } r g s = some H) :
      Took G (.globalBegun (some g)) H
  | enlists {p r g s H} (ht : G.task = .beginGlobal (some p) r s)
      (h : G.call p (.join g) = some H) :
      Took G (.globalBegun (some g)) { H with task := .joinPinned p r g s }
  | unbegun {p r s} (ht : G.task = .beginGlobal p r s) :
      Took G (.globalBegun none) (G.answer (.error .coordinator))
  | remote {tag} (ht : G.task = .remote) :
      Took G (.remoteReturned tag) (G.answer (tag.elim (.error .remote) .command))
  | undecided {ranges g} (ht : G.task = .deciding ranges g) :
      Took G (.decided none) (G.answer (.error .coordinator))
  | released {ranges g c H} (ht : G.task = .deciding ranges g)
      (h : G.releaseAll ranges = some H) :
      Took G (.decided (some c)) (H.answer (.command (if c then .commit else .rollback)))
  | other {r a E} (ha : EngineAct.isOther a = true) (h : (G.ranges r).step a = some E) :
      Took G (.other r a) (G.setRange r E)
  | replicate {r ops} (hr : ¬ G.leads r = true) :
      Took G (.replicate r ops) (G.setRange r { G.ranges r with
        engine := { (G.ranges r).engine with kv := applyBatch (G.ranges r).engine.kv ops } })
  | lead {r leads serving} :
      Took G (.lead r leads serving) { G with
        leads := Function.update G.leads r leads
        serving := Function.update G.serving r serving }

variable {s : Statement Row}

theorem took_route {p : Option RangeId} (ht : G.task = .ready)
    (hs : s.routed = true) (hp : s.pinningRange = .ok p) (h : G.route p s = some H) :
    G.Took (.dispatch s) H := by
  unfold Gateway.route at h
  cases hpin : G.pin <;> rw [hpin] at h
  case none => exact .ran ht hs hp (fun r hr => by simp [Option.mem_def.mp hr]) (.inl hpin) h
  case opened =>
    cases p with
    | none => exact .ran ht hs hp nofun (.inr (by rw [hpin]; rfl)) h
    | some r =>
      simp only at h
      split_ifs at h with hleads
      · obtain ⟨K, hK, hH⟩ := Option.bind_eq_some_iff.mp h
        exact .pinned ht hs hp hpin hK hH
      · cases h
        exact .escalated ht hs hp hpin (Bool.eq_false_of_not_eq_true hleads)
  case range q =>
    cases p with
    | none => exact .ran ht hs hp nofun (.inr (by rw [hpin]; rfl)) h
    | some r =>
      simp only at h
      split_ifs at h with hr
      · exact .ran ht hs hp (by simp [hr]) (.inr (by rw [hpin]; rfl)) h
      · cases h
        exact .escalated (p := some q) ht hs hp hpin hr
  case global =>
    cases p with
    | none => exact .ran ht hs hp nofun (.inr (by rw [hpin]; rfl)) h
    | some r => exact .staged ht hs hp hpin h

theorem took_finishTxn (ht : G.task = .ready) (hs : s = .commit ∨ s = .rollback)
    (h : G.finishTxn s = some H) : G.Took (.dispatch s) H := by
  unfold Gateway.finishTxn at h
  cases hpin : G.pin <;> rw [hpin] at h
  case global =>
    cases h
    exact .decides ht hs hpin
  all_goals exact .closed ht hs (by simp [hpin]) (by rw [hpin]; exact h)

theorem took_dispatch (ht : G.task = .ready) (h : G.dispatch s = some H) :
    G.Took (.dispatch s) H := by
  unfold Gateway.dispatch at h
  cases hp : s.pinningRange <;> simp only [hp] at h
  case error =>
    cases h
    exact .refused ht (.inl hp)
  case ok p =>
    by_cases hgate : G.gated p s = true
    · rw [if_pos hgate] at h
      cases h
      exact .refused ht (.inr ⟨p, hp, hgate⟩)
    rw [if_neg hgate] at h
    cases s with
    | begin =>
      simp only at h
      split_ifs at h with hpin
      · exact .opened ht hpin h
      · exact .nested ht hpin h
    | commit => exact took_finishTxn ht (.inl rfl) h
    | rollback => exact took_finishTxn ht (.inr rfl) h
    | exec | query => exact took_route ht rfl hp h

theorem took_resume (h : G.resume = some H) : G.Took .resume H := by
  have hfails : ∀ r e, G.awaited = some r → (G.sess r).pc = .ready → (G.sess r).err = some e →
      G.Took .resume (G.answer (.error (.session e))) :=
    fun r e hr hpc herr => .returned hr hpc (.inl ⟨e, herr, rfl⟩)
  unfold Gateway.resume at h
  unfold Gateway.awaited at hfails
  cases ht : G.task <;> rw [ht] at h hfails <;> simp only at h <;> try cases h
  case session =>
    split at h <;> cases h
    · exact hfails _ _ rfl ‹_› ‹_›
    · exact .returned (by simp [Gateway.awaited, ht]) ‹_› (.inr ⟨‹_›, _, _, _, ht, rfl⟩)
  case joinStage =>
    split at h
    · cases h
      exact hfails _ _ rfl ‹_› ‹_›
    · exact .resumed ht ‹_› h
    · cases h
  case joinPinned =>
    split at h
    · cases h
      exact hfails _ _ rfl ‹_› ‹_›
    · exact .joined ht ‹_› (by rw [ht]; exact h)
    · cases h

theorem took_of_step {act : GatewayAct Row} (h : G.step act = some H) : G.Took act H := by
  cases act <;> simp only [Gateway.step] at h
  case dispatch =>
    split at h
    · exact took_dispatch ‹_› h
    · cases h
  case work =>
    split_ifs at h with ha
    obtain ⟨r, hr, hcall⟩ := Option.bind_eq_some_iff.mp h
    exact .worked ha hr hcall
  case resume => exact took_resume h
  case globalBegun =>
    split at h
    · rename_i ht
      split at h
      · cases h
        exact .unbegun ht
      · exact .begun ht h
      · obtain ⟨K, hK, rfl⟩ := Option.map_eq_some_iff.mp h
        exact .enlists ht hK
    · cases h
  case remoteReturned =>
    split at h <;> cases h
    exact .remote ‹_›
  case decided =>
    split at h
    · rename_i ht
      split at h
      · cases h
        exact .undecided ht
      · obtain ⟨K, hK, rfl⟩ := Option.map_eq_some_iff.mp h
        exact .released ht hK
    · cases h
  case other =>
    split_ifs at h with ha
    obtain ⟨E, hE, rfl⟩ := Option.map_eq_some_iff.mp h
    exact .other ha hE
  case replicate =>
    split_ifs at h with hr
    cases h
    exact .replicate hr
  case lead =>
    cases h
    exact .lead

end Crabgresql.Router
