import Crabgresql.Cluster.Reuse

/-!
# An acknowledged commit is recorded

The commit log is written once, so a commit is recorded only if nothing was
recorded before under its xid. The invariant: no two open transactions of a
range share an xid, an open transaction has no outcome, neither in the log nor
in flight, and the xid of an open transaction on a node that does not lead is
below the durable counter. The last part needs a condition on leader changes.
-/

namespace Crabgresql.Cluster

open Mvcc Kv Procarray Lockmgr Exec Session Engine Recovery Range Runs MultiRangeCluster Sess

variable {Row : Type}
variable {x : Xid}

def finishing (u : Sess Row) : Bool :=
  match u.pc with
  | .finishing _ _ => true
  | _ => false

/-- The session is about to report, or to be done reporting, the commit of `x`. -/
def Acking (x : Xid) (u : Sess Row) : Prop := u.pc = .finishing x true ∨ u.pc = .releasing x true

section Moves

variable {env : Env} {v v' : View Row} {a : Act Row}

theorem Move.of_finishing (hm : Move env v a v') {ack : Bool} (hpc : v.self.pc = .finishing x ack) : v'.self.pc = .releasing x ack := by
  cases hm with
  | finish x' ack' hpc' =>
    rw [hpc] at hpc'
    cases hpc'
    rfl
  | _ => simp_all [Pc.frame]

theorem Move.acking (hm : Move env v a v') (ha : ∀ ok, a ≠ .apply ok) (h : Acking x v'.self) : Acking x v.self := by
  unfold Acking at h ⊢
  cases hm with
  | finish x' ack' hpc' =>
    rcases h with h | h
    · cases h
    · cases h
      exact .inl hpc'
  | apply ok => exact absurd rfl (ha ok)
  | wait => exact h
  | fail =>
    simp only [failPc] at h
    split_ifs at h <;> simp at h
  | done =>
    simp only at h
    split_ifs at h <;> simp at h
  | _ => simp at h

end Moves

section Returned

variable {u : Sess Row} {b : Batch Row} {epoch : ℕ} {after : After}

theorem activeXid_returned (h : Coherent u) (hpc : u.pc = .committing b epoch after) (ok : Bool) :
    activeXid (u.returned b after ok) = some b.xid := by
  unfold Coherent at h
  rw [hpc] at h
  cases after with
  | keep =>
    cases ok with
    | true =>
      simp only [returned, activeXid]
      split_ifs
      · rfl
      · exact h
    | false => exact (localXid_fail _).trans h
  | enlist =>
    cases ok with
    | true => rfl
    | false => exact h
  | close => cases ok <;> rfl

theorem finishing_returned (u : Sess Row) (b : Batch Row) (ack ok : Bool) :
    finishing (u.returned b (.close ack) ok) = true := by
  cases ok <;> rfl

theorem acking_returned {ok : Bool} (h : Acking x (u.returned b after ok)) :
    x = b.xid ∧ after = .close true ∧ ok = true := by
  unfold Acking at h
  cases after with
  | keep =>
    cases ok with
    | true =>
      simp only [returned] at h
      split_ifs at h <;> simp at h
    | false => simp [returned] at h
  | enlist => cases ok <;> simp [returned] at h
  | close =>
    cases ok with
    | true =>
      simp only [returned, Pc.finishing.injEq, reduceCtorEq, or_false] at h
      exact ⟨h.1.symm, by rw [h.2], rfl⟩
    | false => simp [returned] at h

end Returned

section Ends

variable {env : Env} {v v' : View Row} {a : Act Row}

/-- A session gives up its transaction when the end of the transaction is reported, or by a
drop. -/
theorem Move.ends (hm : Move env v a v') (hc : Coherent v.self) (hx : activeXid v.self = some x)
    (hnone : activeXid v'.self = none) :
    v'.pa = v.pa.finish x ∧ (v.self.txn.localXid = none ∨ a = .drop) := by
  have hready : v.self.pc = .ready → v.self.txn.localXid = some x := by
    intro hpc
    unfold activeXid at hx
    rwa [hpc] at hx
  have hframe : ∀ f, v.self.pc.frame = some f →
      v.self.txn.localXid = if f.autocommit then none else some f.xid :=
    fun f hf => (frame_coherent hc hf).2
  have hcoh := hc
  unfold Coherent at hcoh
  cases hm with
  | still a txn err hpc hx' =>
    rw [show txn.localXid = none from hnone, hready hpc] at hx'
    cases hx'
  | wait =>
    rw [hx] at hnone
    cases hnone
  | fail a f e lm seq hpc =>
    have hloc := hframe f hpc
    unfold activeXid failPc at hnone
    split_ifs at hnone with hauto hw
    rw [if_neg hauto] at hloc
    exact absurd (hnone.symm.trans ((localXid_fail _).trans hloc)) (by simp)
  | done f hpc =>
    have hloc := hframe f (by rw [hpc]; rfl)
    simp only [activeXid] at hnone
    split_ifs at hnone with hauto
    rw [if_neg hauto] at hloc
    exact absurd (hnone.symm.trans hloc) (by simp)
  | apply ok b epoch after hpc =>
    rw [activeXid_returned hc hpc] at hnone
    cases hnone
  | prepared y hpc =>
    rw [hpc] at hcoh
    exact absurd (hnone.symm.trans hcoh) (by simp)
  | finish y ack hpc =>
    rw [hpc] at hcoh
    unfold activeXid at hx
    rw [hpc] at hx
    cases hx
    exact ⟨rfl, .inl hcoh⟩
  | release y ack hpc =>
    unfold activeXid at hx
    rw [hpc] at hx
    cases hx
  | joinIdle g hpc hx' | leave hpc hx' =>
    rw [hready hpc] at hx'
    cases hx'
  | drop y hpc hy =>
    rw [hready hpc] at hy
    cases hy
    exact ⟨rfl, .inr rfl⟩
  | _ => cases hnone

theorem returned_not_releasing (u : Sess Row) (b : Batch Row) (after : After) (ok : Bool) {z : Xid}
    {ack : Bool} : (u.returned b after ok).pc ≠ .releasing z ack := by
  cases after <;> cases ok <;> simp only [returned] <;> try split_ifs
  all_goals simp

theorem Move.of_releasing (hm : Move env v a v') {ack : Bool}
    (h : v'.self.pc = .releasing x ack) : v.self.pc = .finishing x ack := by
  cases hm with
  | finish x' ack' hpc =>
    cases h
    exact hpc
  | wait f r pick lm hpc =>
    rw [hpc] at h
    cases h
  | apply ok b epoch after => exact absurd h (returned_not_releasing _ b after ok)
  | fail =>
    simp only [failPc] at h
    split_ifs at h
  | done =>
    simp only at h
    split_ifs at h
  | _ => cases h

end Ends

structure AckInv (R : Range Row) : Prop where
  xids : XidInv R
  outside : ∀ n s x, R.leader ≠ some n → activeXid (R.sess n s) = some x → x < R.next
  uniq : ∀ n s n' s' x, activeXid (R.sess n s) = some x → activeXid (R.sess n' s') = some x →
    n = n' ∧ s = s'
  undecided : ∀ n s x, activeXid (R.sess n s) = some x → finishing (R.sess n s) = false →
    (R.tip.clogGet x).isTerminal = false
  flight : ∀ p ∈ R.inflight, ∀ b st, p.2.proposal = .batch b → b.outcome = some st →
    st.isTerminal = true → ∀ n s, activeXid (R.sess n s) = some b.xid →
    finishing (R.sess n s) = true
  acked : ∀ n s x, Acking x (R.sess n s) → R.tip.clogGet x = .committed

/-- When the leader changes, every transaction open on the old leader has an xid below the durable
counter. -/
def Handover (R : Range Row) : RangeAct Row → Prop
  | .elect _ => ∀ m s x, R.leader = some m → activeXid (R.sess m s) = some x → x < R.next
  | _ => True

section Steps

variable {R R' : Range Row} {n : NodeId} {s : SessionId} {a : Act Row} {glob : GlobalView}

theorem AckInv.open_lt (h : AckInv R) (hlead : R.leader = some n) (hseed : R.seeded = true)
    {m : NodeId} {s' : SessionId} (hx : activeXid (R.sess m s') = some x) :
    x < (R.nodes n).pa.nextXid := by
  by_cases hm : R.leader = some m
  · rw [hlead] at hm
    cases hm
    exact (h.xids.sess n s').xid x hx
  · exact lt_of_lt_of_le (h.outside m s' x hm hx) (h.xids.lead n hlead hseed)

theorem AckInv.fresh_undecided (h : AckInv R) (hlead : R.leader = some n)
    (hseed : R.seeded = true) : R.tip.clogGet (R.nodes n).pa.nextXid = .inProgress := by
  have hnone : R.tip.clog[(R.nodes n).pa.nextXid]? = none := by
    by_contra hsome
    exact absurd (h.xids.lead n hlead hseed) (not_le.mpr (h.xids.named _ (.inl hsome)))
  simp [Store.clogGet, hnone]

variable {b : Batch Row} {epoch : ℕ} {after : After}

theorem AckInv.flight_lt (h : AckInv R) (hlead : R.leader = some n) (hseed : R.seeded = true)
    {p : ℕ × LogEntry Row} (hp : p ∈ R.inflight) (hb : p.2.proposal = .batch b) :
    b.xid < (R.nodes n).pa.nextXid := by
  obtain ⟨next, hok, hbound⟩ := (h.xids.flight p hp).2 b hb
  have hterm := (canAppend_iff.mp (h.xids.current p hp)).2 hseed
  exact lt_of_lt_of_le hok.xid (hbound hterm n hlead)

variable {act : RangeAct Row} {m : NodeId} {s' : SessionId}

/-- A transaction that is open after a step was open before, or has just been started. -/
theorem XidInv.active_step (h : XidInv R) (hstep : R.step glob act = some R')
    (hx : activeXid (R'.sess m s') = some x) : (activeXid (R.sess m s') = some x ∧
        (finishing (R.sess m s') = true → finishing (R'.sess m s') = true)) ∨
      (x = (R.nodes m).pa.nextXid ∧ R.leader = some m ∧ R.seeded = true ∧
        activeXid (R.sess m s') = none ∧ ∃ w lag, act = .call m s' (.start w) lag) := by
  have hc : Coherent (R.sess m s') := (h.sess m s').coherent
  have hb := became_step hstep m s'
  generalize R'.sess m s' = u at hb hx ⊢
  cases hb with
  | same => exact .inl ⟨hx, id⟩
  | new => cases hx
  | returned b epoch after ok lag hact hpc =>
    rw [activeXid_returned hc hpc] at hx
    exact .inl ⟨by simpa [activeXid, hpc] using hx, by simp [finishing, hpc]⟩
  | moved a v lag hact ha hadm hmove =>
    rcases Move.activeXid_cases hmove hc with ⟨hsame, -⟩ | ⟨hnone, hnew, -, w, rfl⟩
    · refine .inl ⟨?_, fun hfin => ?_⟩
      · rcases hsame with hsame | hnone
        · exact hsame ▸ hx
        · rw [hnone] at hx
          cases hx
      · -- a finishing session only goes on to release its locks
        unfold finishing at hfin
        split at hfin
        · rename_i y ack hpc
          simp [activeXid, Move.of_finishing hmove hpc] at hx
        · cases hfin
    · rw [hnew] at hx
      cases hx
      simp only [Range.admits, Bool.and_eq_true, decide_eq_true_eq] at hadm
      exact .inr ⟨rfl, hadm.1.1, hadm.1.2, hnone, w, lag, hact⟩

/-- Whatever ends the transaction of `b` ends it for the session that has it open. -/
def Ends (R : Range Row) (b : Batch Row) : Prop :=
  ∀ st, b.outcome = some st → st.isTerminal = true → ∀ n s, activeXid (R.sess n s) = some b.xid →
    finishing (R.sess n s) = true

theorem fits_terminal {st : XidStatus} (h : Fits b after)
    (hst : b.outcome = some st) (hterm : st.isTerminal = true) : ∃ ack, after = .close ack := by
  cases after with
  | keep =>
    rcases h with h | ⟨g, h⟩
    · rw [h] at hst
      cases hst
    · rw [h] at hst
      cases hst
      cases hterm
  | enlist =>
    obtain ⟨g, h⟩ := h
    rw [h] at hst
    cases hst
    cases hterm
  | close ack => exact ⟨ack, rfl⟩

theorem AckInv.ends_returned {ok : Bool} {lag : Lag} (h : AckInv R)
    (hstep : R.step glob (.call n s (.apply ok) lag) = some R')
    (hpc : (R.sess n s).pc = .committing b epoch after) : Ends R' b := by
  intro st hst hterm m s' hx
  rcases h.xids.active_step hstep hx with ⟨hx, -⟩ | ⟨-, -, -, -, w, lag', hact⟩
  · -- no other session has the transaction open
    obtain ⟨rfl, rfl⟩ := h.uniq m s' n s b.xid hx (by simp [activeXid, hpc])
    obtain ⟨ack, rfl⟩ := fits_terminal ((h.xids.sess m s').batch b epoch after hpc).2 hst hterm
    rw [returned_step hstep hpc, finishing_returned]
  · cases hact

theorem AckInv.ends_flight (h : AckInv R) (hstep : R.step glob act = some R')
    {p : ℕ × LogEntry Row} (hp : p ∈ R.inflight) (hb : p.2.proposal = .batch b) : Ends R' b := by
  intro st hst hterm m s' hx
  rcases h.xids.active_step hstep hx with ⟨hx, hfin⟩ | ⟨hfresh, hl, hseed, -⟩
  · exact hfin (h.flight p hp b st hb hst hterm m s' hx)
  · exact absurd (h.flight_lt hl hseed hp hb) (hfresh ▸ lt_irrefl _)

theorem committed_step (h : R.tip.clogGet x = .committed)
    (hstep : R.step glob act = some R') : R'.tip.clogGet x = .committed := by
  obtain ⟨ops, hops⟩ := tip_step hstep
  rw [hops, clogGet_applyBatch_terminal (by rw [h]; rfl)]
  exact h

/-- What is in flight, or is proposed by a session. -/
def Pending (R : Range Row) (e : LogEntry Row) : Prop :=
  (∃ epoch, (epoch, e) ∈ R.inflight) ∨ ∃ n s b epoch after,
    (R.sess n s).pc = .committing b epoch after ∧ e = R.entryOf n s b after

theorem Appended.pending {e : LogEntry Row} (h : Appended R act e) (hb : e.proposal = .batch b) :
    Pending R e := by
  cases h with
  | session n s b epoch after lag hpc => exact .inr ⟨n, s, b, epoch, after, hpc, rfl⟩
  | flight i epoch e hget => exact .inl ⟨epoch, List.mem_of_getElem? hget⟩
  | watermark => cases hb

theorem XidInv.pending_seqOnly (h : XidInv R) {e : LogEntry Row} (he : Pending R e)
    (hb : e.proposal = .batch b) : SeqOnly b.seqOps := by
  rcases he with ⟨epoch, hp⟩ | ⟨n, s, b', epoch, after, hpc, rfl⟩
  · obtain ⟨next, hok, -⟩ := (h.flight _ hp).2 b hb
    exact hok.seqOps
  · cases hb
    exact ((h.sess n s).batch b epoch after hpc).1.seqOps

theorem AckInv.undecided_step (h : AckInv R) (hstep : R.step glob act = some R')
    (hx : activeXid (R'.sess m s') = some x) (hfin : finishing (R'.sess m s') = false) :
    (R'.tip.clogGet x).isTerminal = false := by
  have hund : (R.tip.clogGet x).isTerminal = false := by
    rcases h.xids.active_step hstep hx with ⟨hx, hfin'⟩ | ⟨rfl, hl, hseed, -⟩
    · exact h.undecided m s' x hx (Bool.eq_false_iff.mpr fun hf => by simp [hfin' hf] at hfin)
    · rw [h.fresh_undecided hl hseed]
      rfl
  rcases log_step hstep with hlog | ⟨e, ha, hlog⟩
  · rwa [show R'.tip = R.tip by simp [tip, hlog]]
  rw [show R'.tip = applyBatch R.tip e.proposal.ops by simp [tip, hlog]]
  cases hb : e.proposal with
  | scanLo lo =>
    change ((applyOp R.tip (.counter .clogScanLo lo)).clogGet x).isTerminal = false
    rw [clogGet_applyOp]
    exact hund
  | batch b =>
    change ((applyBatch R.tip b.ops).clogGet x).isTerminal = false
    rw [clogGet_applyBatch_ops (h.xids.pending_seqOnly (Appended.pending ha hb) hb)]
    cases hst : b.outcome with
    | none => exact hund
    | some st =>
      simp only
      split_ifs with hbx
      · subst hbx
        simp only [keepTerminal, hund, Bool.false_eq_true, if_false]
        by_contra hterm
        rw [Bool.not_eq_false] at hterm
        have hends : Ends R' b := by
          cases ha with
          | session n s b' epoch after lag hpc =>
            cases hb
            exact h.ends_returned hstep hpc
          | flight i epoch e hget => exact h.ends_flight hstep (List.mem_of_getElem? hget) hb
          | watermark => cases hb
        simp [hends st hst hterm m s' hx] at hfin
      · exact hund

theorem AckInv.outside_step (h : AckInv R) (hhand : Handover R act)
    (hstep : R.step glob act = some R') (hm : R'.leader ≠ some m)
    (hx : activeXid (R'.sess m s') = some x) : x < R'.next := by
  refine lt_of_lt_of_le ?_ (durable_le_step hstep)
  rcases h.xids.active_step hstep hx with ⟨hold, -⟩ | ⟨-, hl, -, -, w, lag, rfl⟩
  · by_cases hl : R.leader = some m
    · cases leads_step hstep with
      | kept hlead | settle _ _ hlead => exact absurd (hlead.trans hl) hm
      | elect n => exact hhand m s' x hl hold
      | crash n heq =>
        -- the leader has restarted, with no session
        subst heq
        by_cases hmn : m = n
        · rw [sess_crash, if_pos hmn] at hx
          cases hx
        · simp [Range.crash, hl, hmn, setNode] at hm
    · exact h.outside m s' x hl hold
  · cases leads_step hstep with
    | kept hlead => exact absurd (hlead.trans hl) hm

theorem ackInv_step (h : AckInv R) (hfold : Folded R act) (hhand : Handover R act)
    (hstep : R.step glob act = some R') : AckInv R' where
  xids := xidInv_step h.xids hfold hstep
  outside m s' x hm hx := h.outside_step hhand hstep hm hx
  uniq m s₁ m' s₂ x hx₁ hx₂ := by
    rcases h.xids.active_step hstep hx₁ with ⟨hx₁, -⟩ | ⟨rfl, hl, hseed, -, w, lag, rfl⟩ <;>
      rcases h.xids.active_step hstep hx₂ with ⟨hx₂, -⟩ | ⟨hfresh, hl', hseed', -, w', lag', hact⟩
    · exact h.uniq m s₁ m' s₂ x hx₁ hx₂
    · exact absurd (h.open_lt hl' hseed' hx₁) (hfresh ▸ lt_irrefl _)
    · exact absurd (h.open_lt hl hseed hx₂) (lt_irrefl _)
    · cases hact
      exact ⟨rfl, rfl⟩
  undecided m s' x hx hfin := h.undecided_step hstep hx hfin
  flight p hp b st hb hst hterm := by
    rcases inflight_step hstep hp with hp | ⟨n, s, b', after, lag, rfl, hpc, -, he⟩ |
      ⟨n, term, lo, -, -, -, rfl⟩
    · exact h.ends_flight hstep hp hb st hst hterm
    · rw [he] at hb
      cases hb
      exact h.ends_returned hstep hpc st hst hterm
    · cases hb
  acked m s' x hack := by
    have hb := became_step hstep m s'
    generalize R'.sess m s' = u at hb hack
    cases hb with
    | same => exact committed_step (h.acked m s' x hack) hstep
    | new => rcases hack with hack | hack <;> cases hack
    | returned b epoch after ok lag hact hpc =>
      obtain ⟨rfl, rfl, rfl⟩ := acking_returned hack
      subst hact
      obtain ⟨hb, hfits⟩ := (h.xids.sess m s').batch b epoch _ hpc
      have hund := h.undecided m s' b.xid (by simp [activeXid, hpc]) (by simp [finishing, hpc])
      rw [show R'.tip = applyBatch R.tip b.ops by
          simp [tip, appended_step hstep hpc, entryOf, Proposal.ops],
        clogGet_applyBatch_ops hb.seqOps, show b.outcome = some .committed from hfits]
      simp [keepTerminal, hund]
    | moved a v lag hact ha hadm hmove =>
      exact committed_step (h.acked m s' x (Move.acking hmove ha hack)) hstep

theorem ackInv_initial : AckInv (Range.initial : Range Row) where
  xids := xidInv_initial
  outside n s x _ hx := by cases hx
  uniq n s n' s' x hx := by cases hx
  undecided n s x hx := by cases hx
  flight p hp := by cases hp
  acked n s x hack := by rcases hack with h | h <;> cases h

end Steps

def Disciplined (R : Range Row) (a : RangeAct Row) : Prop := Folded R a ∧ Handover R a

theorem ackInv_exec {acts : List (ClusterAct Row)} {C : MultiRangeCluster Row}
    (h : exec step initial acts = some C)
    (hok : Runs.Along step (OnRange fun _ => Disciplined) .initial acts)
    (r : RangeId) : AckInv (C.ranges r) :=
  range_invariant (I := fun _ R => AckInv R) (fun _ _ _ _ hI hd hs => ackInv_step hI hd.1 hd.2 hs)
    (fun _ _ _ _ hI => hI) ackInv_initial hok h

/-- Once a session reports the commit of `x`, the log holds it, then and ever after. -/
theorem acked_commit_recorded {acts later : List (ClusterAct Row)} {C C' : MultiRangeCluster Row}
    (h : exec step initial acts = some C)
    (hlater : exec step C later = some C')
    (hok : Runs.Along step (OnRange fun _ => Disciplined) .initial acts)
    {r : RangeId} {n : NodeId} {s : SessionId} {x : Xid} (hack : Acking x ((C.ranges r).sess n s)) :
    (C.ranges r).tip.clogGet x = .committed ∧ (C'.ranges r).tip.clogGet x = .committed := by
  have hnow := (ackInv_exec h hok r).acked n s x hack
  have hany : Runs.Along step (OnRange fun _ (_ : Range Row) _ => True) C later :=
    along_trivial (fun C a => by cases a <;> trivial) C later
  exact ⟨hnow, range_invariant (I := fun _ R => R.tip.clogGet x = .committed)
    (fun _ _ _ _ hI _ hs => committed_step hI hs) (fun _ _ _ _ hI => hI) hnow hany hlater⟩

section Runs

/-- After the failover of `lockOnlyRun`, an INSERT on node 1 up to the report of its commit. -/
def reusedInsertRun : List (ClusterAct ℕ) :=
  lockOnlyRun ++ onRange 0 (calls 1 0
    [.start insertOne, .takeSnapshot, .scan, .propose, .apply true, .finish])

def ackedInsertRun : List (ClusterAct ℕ) :=
  onRange 0 (openGate 0 false ++
    calls 0 0 [.start insertOne, .takeSnapshot, .scan, .propose, .apply true, .finish])

def crashRun : List (ClusterAct ℕ) := onRange 0 (.crash 0 :: openGate 1 true)

def reports (x : Xid) (u : Sess ℕ) : Bool :=
  match u.pc with
  | .releasing y true => y = x
  | _ => false

theorem releasing_of_reports {u : Sess ℕ} (h : reports x u = true) : u.pc = .releasing x true := by
  unfold reports at h
  split at h
  · rename_i y hpc
    rw [hpc, of_decide_eq_true h]
  · cases h

/-- A leader change of a range whose leader is gone. -/
def disciplinedCheck (R : Range ℕ) (a : RangeAct ℕ) : Bool :=
  decide (Folded R a) &&
    match a with
    | .elect _ => R.leader.isNone
    | _ => true

theorem disciplined_of_check {R : Range ℕ} {a : RangeAct ℕ} (h : disciplinedCheck R a = true) :
    Disciplined R a := by
  unfold disciplinedCheck at h
  rw [Bool.and_eq_true, decide_eq_true_eq] at h
  refine ⟨h.1, ?_⟩
  cases a with
  | elect =>
    intro m s x hm
    rw [Option.isNone_iff_eq_none.mp h.2] at hm
    cases hm
  | _ => trivial

def checkRange (okb : GlobalView → Range ℕ → RangeAct ℕ → Bool) (C : MultiRangeCluster ℕ) :
    ClusterAct ℕ → Bool
  | .on r a => okb C.glob (C.ranges r) a
  | .decide _ _ => true

theorem onRange_of_check {okb : GlobalView → Range ℕ → RangeAct ℕ → Bool}
    {ok : GlobalView → Range ℕ → RangeAct ℕ → Prop}
    (h : ∀ glob R a, okb glob R a = true → ok glob R a) (C : MultiRangeCluster ℕ)
    (act : ClusterAct ℕ) (hact : checkRange okb C act = true) : OnRange ok C act := by
  cases act with
  | on => exact h _ _ _ hact
  | decide => trivial

end Runs

/-- The reused xid was aborted, so the commit that the client is told of is not recorded. -/
theorem acked_commit_dropped : ∃ C : MultiRangeCluster ℕ,
      exec step initial reusedInsertRun = some C ∧
      Acking 1 ((C.ranges 0).sess 1 0) ∧ (C.ranges 0).tip.clogGet 1 = .aborted := by
  obtain ⟨C, hC, hack, hdropped⟩ :
      ∃ C ∈ exec step initial reusedInsertRun,
        reports 1 ((C.ranges 0).sess 1 0) = true ∧ (C.ranges 0).tip.clogGet 1 = .aborted := by decide
  exact ⟨C, hC, .inr (releasing_of_reports hack), hdropped⟩

/-- The commit survives the crash of the node that reported it. -/
theorem acked_commit_recorded_after_crash : ∃ C C' : MultiRangeCluster ℕ,
      exec step initial ackedInsertRun = some C ∧
      exec step C crashRun = some C' ∧
      (C'.ranges 0).tip.clogGet 1 = .committed := by
  obtain ⟨C, hC, hack, C', hC', -⟩ :
      ∃ C ∈ exec step initial ackedInsertRun,
        reports 1 ((C.ranges 0).sess 0 0) = true ∧ ∃ C' ∈ exec step C crashRun, True := by decide
  have hok : Runs.Along step (OnRange fun _ => Disciplined)
      (initial : MultiRangeCluster ℕ) ackedInsertRun :=
    along_of_check (checkRange fun _ => disciplinedCheck)
      (onRange_of_check fun _ _ _ => disciplined_of_check) (by decide)
  exact ⟨C, C', hC, hC', (acked_commit_recorded hC hC' hok (.inr (releasing_of_reports hack))).2⟩

end Crabgresql.Cluster
