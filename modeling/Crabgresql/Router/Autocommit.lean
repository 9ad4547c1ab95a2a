import Crabgresql.Router.Calls

/-!
# Autocommit writes of a router

An autocommit write runs under an xid of its own from its first step to its
return. When it returns without an error, its xid is recorded as committed, if it
had no outcome before.
-/

namespace Crabgresql.Router

open Mvcc Kv Exec Session Engine MultiRange Cluster Gateway

variable {Row : Type} {G H : Gateway Row}
variable {r : RangeId}

/-- The session is executing an autocommit write under `x`, or has ended it: with an error, or
with `x` committed. -/
def AutoRun (x : Xid) (kv : Store Row) (u : Sess Row) : Prop :=
  SeqOnly (pcSeqOps u.pc) ∧
    match u.pc with
    | .starting w y autocommit => y = x ∧ autocommit = true ∧ w.isWrite = true
    | .scanning f | .looping f | .acquiring f _ | .locked f _ =>
      f.xid = x ∧ f.autocommit = true ∧ f.work.isWrite = true
    | .committing b _ after => b.xid = x ∧
        (after = .close true ∧ b.outcome = some .committed ∨ after = .close false ∧ u.err ≠ none)
    | .finishing y ack | .releasing y ack =>
      y = x ∧ (kv.clogGet x = .committed ∨ ack = false ∧ u.err ≠ none)
    | .ready => kv.clogGet x = .committed ∨ u.err ≠ none
    | .preparing _ => False

theorem AutoRun.applyBatch {x : Xid} {kv : Store Row} {u : Sess Row} (h : AutoRun x kv u)
    (ops : List (WriteOp Row)) : AutoRun x (applyBatch kv ops) u := by
  have hkept : kv.clogGet x = .committed → (Kv.applyBatch kv ops).clogGet x = .committed := by
    intro hx
    rw [clogGet_applyBatch_terminal (by rw [hx]; rfl), hx]
  obtain ⟨txn, gx, pc, err⟩ := u
  obtain ⟨hseq, hrun⟩ := h
  refine ⟨hseq, ?_⟩
  cases pc with
  | finishing | releasing => exact ⟨hrun.1, hrun.2.imp hkept id⟩
  | ready => exact hrun.imp hkept id
  | starting w y autocommit | scanning f | looping f | acquiring f k | locked f k
  | committing b epoch after | preparing y => exact hrun

theorem AutoRun.work {x : Xid} {env : Env} {v v' : View Row} {a : Act Row}
    (hmode : env.cfg.mode = .replicated) (ha : isInternal a = true)
    (h : AutoRun x v.kv v.self) (hstep : Session.step env v a = some v')
    (hfresh : a = .apply true → (v.kv.clogGet x).isTerminal = false) : AutoRun x v'.kv v'.self := by
  have hbusy := pc_ne_ready_of_internal ha hstep
  have hm := step_move hmode hstep
  refine ⟨Move.seqOnly hm h.1, ?_⟩
  have hrun := h.2
  cases hm with
  | still _ txn err hpc | alloc w autocommit txn hpc | resume w y c hpc | commit y c hpc
  | abort _ hab y hpc => exact absurd hpc hbusy
  | read w y autocommit f txn hpc hx hw hauto =>
    rw [hpc] at hrun
    exact ⟨hx.trans hrun.1, hauto.trans hrun.2.1, hw ▸ hrun.2.2⟩
  | fill f t rows cs seq n hpc | target f todo k hpc | grant f k pick lm hpc
  | take f k found c hpc | finish y ack hpc =>
    rw [hpc] at hrun
    exact hrun
  | walk _ f todo hpc =>
    rcases hpc with hpc | hpc | ⟨k, hpc⟩ <;> rw [hpc] at hrun <;> exact hrun
  | wait => exact hrun
  | fail _ f e lm seq hpc =>
    have hf : f.xid = x ∧ f.autocommit = true ∧ f.work.isWrite = true := by
      cases hp : v.self.pc <;> rw [hp] at hrun hpc <;> cases hpc <;> exact hrun
    simp only [failPc, hf.2.1, hf.2.2, if_true]
    exact ⟨hf.1, .inr ⟨trivial, by simp⟩⟩
  | done f hpc hw =>
    rw [hpc] at hrun
    rw [hrun.2.2] at hw
    cases hw
  | submit f hpc =>
    rw [hpc] at hrun
    exact ⟨hrun.1, .inl ⟨rfl, rfl⟩⟩
  | stage f c rows marker hpc hw hauto =>
    rw [hpc] at hrun
    rw [hrun.2.1] at hauto
    cases hauto
  | apply ok b epoch after hpc =>
    have hseq := h.1
    rw [hpc] at hrun hseq
    obtain ⟨hx, ⟨rfl, hout⟩ | ⟨rfl, herr⟩⟩ := hrun
    · cases ok with
      | false => exact ⟨hx, .inr ⟨rfl, by simp [Sess.returned]⟩⟩
      | true =>
        refine ⟨hx, .inl ?_⟩
        change (Kv.applyBatch v.kv b.ops).clogGet x = .committed
        rw [clogGet_applyBatch_ops hseq, hout]
        simp [hx, keepTerminal, hfresh rfl]
    · cases ok with
      | false => exact ⟨hx, .inr ⟨rfl, by simp [Sess.returned]⟩⟩
      | true => exact ⟨hx, .inr ⟨rfl, herr⟩⟩
  | prepared y hpc =>
    rw [hpc] at hrun
    exact hrun.elim
  | release y ack hpc =>
    rw [hpc] at hrun
    exact hrun.2.imp id fun hno => hno.2
  | _ => cases ha

theorem AutoRun.start {env : Env} {v v' : View Row} {w : Work Row}
    (hmode : env.cfg.mode = .replicated) (hidle : v.self.txn = .idle) (hw : w.isWrite = true)
    (h : Session.step env v (.start w) = some v') : AutoRun v.pa.nextXid v'.kv v'.self := by
  obtain ⟨kv, pa, lm, seq, txn, gx, pc, err⟩ := v
  simp only at hidle
  subst hidle
  simp only [Session.step, View.start, Procarray.ProcArray.beginWrite, hmode] at h
  split at h
  · cases h
    exact ⟨seqOnly_nil, rfl, rfl, hw⟩
  · rename_i heq
    cases heq
  · rename_i heq
    cases heq
  · cases h

def Gateway.AutoInv (G : Gateway Row) : Prop :=
  ∀ r s tag auto, G.task = .session r s tag auto → s.isWrite = true → G.pin = .none →
    ∃ x, auto = some x ∧ AutoRun x (G.ranges r).engine.kv (G.sess r)

theorem autoInv_of_task (h : ∀ r s tag auto, G.task ≠ .session r s tag auto) : G.AutoInv :=
  fun r s tag auto htask => absurd htask (h r s tag auto)

theorem autoInv_runSession {s : Statement Row} (hidle : (G.sess r).txn = .idle)
    (hrun : G.runSession r s = some H) : H.AutoInv := by
  obtain ⟨K, hK, rfl⟩ := Option.map_eq_some_iff.mp hrun
  intro r' s' tag auto htask hs _
  cases htask
  cases s with
  | exec =>
    refine ⟨(G.ranges r).engine.pa.nextXid, ?_, ?_⟩
    · simp only [autoXid, hidle]
      exact if_pos hs
    · obtain ⟨v, hv, rfl⟩ := call_eq_some hK
      have hauto : AutoRun (G.ranges r).engine.pa.nextXid v.kv v.self :=
        AutoRun.start rfl hidle hs hv
      simpa [setRange, sess, SqlEngine.set, Statement.fails] using hauto
  | _ => cases hs

theorem autoInv_of_not_write {s : Statement Row} (hs : s.isWrite = false)
    (htask : H.task = .remote ∨ ∃ tag auto, H.task = .session r s tag auto) : H.AutoInv := by
  intro r' s' tag' auto' htask' hs'
  rcases htask with htask | ⟨tag, auto, htask⟩ <;> rw [htask] at htask' <;> cases htask'
  rw [hs] at hs'
  cases hs'

theorem autoInv_of_pin (hpin : H.pin ≠ .none) : H.AutoInv :=
  fun _ _ _ _ _ _ hnone => absurd hnone hpin

/-- The xid of an autocommit write has no outcome on record. -/
def Gateway.Unrecorded (G : Gateway Row) : Task Row → Prop
  | .session r _ _ (some x) => ((G.ranges r).engine.kv.clogGet x).isTerminal = false
  | _ => True

instance (G : Gateway Row) (t : Task Row) : Decidable (G.Unrecorded t) := by
  unfold Gateway.Unrecorded
  split <;> infer_instance

theorem Gateway.AutoInv.kv (h : G.AutoInv) {E : RangeEngine Row}
    (hsess : (G.setRange r E).sess = G.sess)
    (hkv : E.engine.kv = (G.ranges r).engine.kv ∨ ∃ ops, E.engine.kv = applyBatch (G.ranges r).engine.kv ops) :
    (G.setRange r E).AutoInv := by
  intro r' s tag auto htask hs hpin
  obtain ⟨x, hx, hrun⟩ := h r' s tag auto htask hs hpin
  refine ⟨x, hx, ?_⟩
  rw [hsess]
  by_cases hr : r' = r
  · subst hr
    simp only [setRange, Function.update_self]
    rcases hkv with hkv | ⟨ops, hkv⟩
    · rw [hkv]
      exact hrun
    · rw [hkv]
      exact hrun.applyBatch ops
  · simp only [setRange, Function.update_of_ne hr]
    exact hrun

theorem Gateway.AutoInv.work (h : G.AutoInv) {a : Act Row} (hr : G.awaited = some r)
    (ha : isInternal a = true) (hok : a = .apply true → G.Unrecorded G.task)
    (hcall : G.call r a = some H) : H.AutoInv := by
  obtain ⟨v, hv, rfl⟩ := call_eq_some hcall
  intro r' s tag auto htask hs hpin
  obtain ⟨x, rfl, hrun⟩ := h r' s tag auto htask hs hpin
  have htask' : G.task = .session r' s tag (some x) := htask
  have hrr : r' = r := by
    simp only [awaited, htask', Option.some.injEq] at hr
    exact hr
  subst hrr
  refine ⟨x, rfl, ?_⟩
  have hfresh : a = .apply true → ((G.ranges r').engine.kv.clogGet x).isTerminal = false := by
    intro happly
    simpa only [Unrecorded, htask'] using hok happly
  have hrun' : AutoRun x v.kv v.self := AutoRun.work rfl ha hrun hv hfresh
  simpa [setRange, sess, SqlEngine.set] using hrun'

end Crabgresql.Router
