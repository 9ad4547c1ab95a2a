import Crabgresql.Cluster.Calls

/-!
# Xids across leader changes

Whatever a replicated store names is below its durable counter, and the counter
of a leader that has reseeded is at least the durable one, so the xid a leader
allocates is new. The invariant needs one thing of the batches that do not carry
the counter: each is appended when the durable counter has passed its xid.
-/

namespace Crabgresql.Cluster

open Mvcc Kv Procarray Lockmgr Exec Session Engine Recovery Function List Range

variable {Row : Type}
variable {b : Batch Row} {epoch : ℕ} {after : After}

def Range.next (R : Range Row) : ℕ := ProcArray.durableNext R.tip

def Owned (R : Range Row) (n : NodeId) (epoch : ℕ) : Prop :=
  epoch ≤ R.term ∧ (epoch ≠ 0 → epoch = R.term → ∀ m, R.leader = some m → m = n)

def FlightOk (R : Range Row) (p : ℕ × LogEntry Row) : Prop :=
  p.1 ≤ R.term ∧ ∀ b, p.2.proposal = .batch b → ∃ next, BatchOk next R.next b ∧
    (p.1 = R.term → ∀ m, R.leader = some m → next ≤ (R.nodes m).pa.nextXid)

structure XidInv (R : Range Row) : Prop where
  formed : ∀ e ∈ R.log, ∀ op ∈ e.proposal.ops, FormedOp op
  named : ∀ x, Names R.tip x → x < R.next
  lead : ∀ m, R.leader = some m → R.seeded = true → R.next ≤ (R.nodes m).pa.nextXid
  sess : ∀ n s, Bounded (R.nodes n).pa.nextXid R.next ((R.nodes n).sessions s)
  epoch : ∀ n s b epoch after, ((R.nodes n).sessions s).pc = .committing b epoch after →
    Owned R n epoch
  flight : ∀ p ∈ R.inflight, FlightOk R p
  current : ∀ p ∈ R.inflight, R.canAppend p.1 = true

section Prefixes

variable {R : Range Row}

theorem names_storeAt {i : ℕ} {x : Xid} (h : Names (R.storeAt i) x) : Names R.tip x := by
  rw [R.tip_eq_storeAt i, names_applyBatch]
  exact .inl h

theorem formed_storeAt (h : XidInv R) (i : ℕ) : Formed (R.storeAt i) := by
  refine formed_applyBatch ?_ ?_
  · intro op hop
    obtain ⟨e, he, hmem⟩ := mem_flatMap.mp hop
    exact h.formed e (mem_of_mem_take he) op hmem
  · intro k x t ht
    rw [version_empty] at ht
    cases ht

theorem storeAt_xmin_lt (h : XidInv R) (i : ℕ) (k : RowKey) :
    ∀ t ∈ (R.storeAt i).rowVersions k, t.xmin < R.next := by
  intro t ht
  obtain ⟨x, hx⟩ := (mem_rowVersions _).mp ht
  have hnamed : Names (R.storeAt i) x := .inr ⟨k, by rw [hx]; simp⟩
  rw [formed_storeAt h i k x t hx]
  exact h.named x (names_storeAt hnamed)

end Prefixes

section Updates

variable {R : Range Row} {n : NodeId} {node : Node Row}

/-- A node's counter may be raised. -/
theorem XidInv.setNode (h : XidInv R) (hpa : (R.nodes n).pa.nextXid ≤ node.pa.nextXid)
    (hs : node.sessions = (R.nodes n).sessions) : XidInv (R.setNode n node) := by
  have hle : ∀ m, (R.nodes m).pa.nextXid ≤ ((R.setNode n node).nodes m).pa.nextXid := by
    intro m
    rw [nodes_setNode]
    split_ifs with hm
    · exact hm ▸ hpa
    · exact le_rfl
  have hsess : ∀ m, ((R.setNode n node).nodes m).sessions = (R.nodes m).sessions :=
    field_setNode Node.sessions hs
  refine ⟨h.formed, h.named, fun m hm hseed => (h.lead m hm hseed).trans (hle m), fun m s => ?_,
    fun m s b epoch after hpc => ?_, fun p hp => ⟨(h.flight p hp).1, fun b hb => ?_⟩, h.current⟩
  · rw [hsess]
    exact (h.sess m s).mono (hle m) le_rfl
  · rw [hsess] at hpc
    exact h.epoch m s b epoch after hpc
  · obtain ⟨next, hok, hbound⟩ := (h.flight p hp).2 b hb
    exact ⟨next, hok, fun ht m hm => (hbound ht m hm).trans (hle m)⟩

def Appendable (R : Range Row) (e : LogEntry Row) : Prop :=
  ∀ b, e.proposal = .batch b → (b.nextXid = none → b.xid < R.next) ∧
    ∃ next, BatchOk next R.next b ∧
      (R.seeded = true → ∀ m, R.leader = some m → next ≤ (R.nodes m).pa.nextXid)

theorem next_append {e : LogEntry Row} (h : Appendable R e) : (R.append e).next =
      match e.proposal with
      | .batch b => max R.next (b.nextXid.getD 0)
      | .scanLo _ => R.next := by
  unfold Range.next
  rw [tip_append]
  obtain ⟨proposal, staged⟩ := e
  cases proposal with
  | batch b =>
    obtain ⟨-, next, hok, -⟩ := h b rfl
    exact durableNext_applyBatch_ops hok.seqOps
  | scanLo lo => exact durableNext_applyOp R.tip (.counter .clogScanLo lo)

theorem formed_appendable {e : LogEntry Row} (he : Appendable R e) :
    ∀ op ∈ e.proposal.ops, FormedOp op := by
  intro op hop
  obtain ⟨proposal, staged⟩ := e
  cases proposal with
  | batch b =>
    obtain ⟨-, next, hok, -⟩ := he b rfl
    exact formedOp_ops hok.seqOps op hop
  | scanLo =>
    obtain rfl := mem_singleton.mp hop
    trivial

theorem next_le_append (R : Range Row) (e : LogEntry Row) : R.next ≤ (R.append e).next := by
  unfold Range.next
  rw [tip_append]
  exact durableNext_le_applyBatch _

theorem XidInv.named_append (h : XidInv R) {e : LogEntry Row} (he : Appendable R e) {x : Xid}
    (hx : Names (R.append e).tip x) : x < (R.append e).next := by
  have hnext := next_append he
  have hle := next_le_append R e
  rw [tip_append] at hx
  obtain ⟨proposal, staged⟩ := e
  cases proposal with
  | batch b =>
    obtain ⟨hfold, next, hok, -⟩ := he b rfl
    simp only at hnext
    rcases names_ops hok.seqOps hx with hx | rfl | ⟨c, hc, hy⟩
    · exact (h.named x hx).trans_le hle
    · cases hn : b.nextXid with
      | none => exact (hfold hn).trans_le hle
      | some m =>
        rw [hnext, hn]
        exact (hok.fold m hn).1.trans_le (le_max_right _ _)
    · exact (hok.targets c hc x hy).trans_le hle
  | scanLo =>
    rw [names_applyBatch] at hx
    rcases hx with hx | ⟨op, hop, hx⟩
    · exact (h.named x hx).trans_le hle
    · obtain rfl := mem_singleton.mp hop
      cases hx

theorem XidInv.lead_append (h : XidInv R) {e : LogEntry Row} (he : Appendable R e)
    (hlead : R.leader = some n) (hseed : R.seeded = true) :
    (R.append e).next ≤ (R.nodes n).pa.nextXid := by
  have hold := h.lead n hlead hseed
  rw [next_append he]
  obtain ⟨proposal, staged⟩ := e
  cases proposal with
  | batch b =>
    obtain ⟨-, next, hok, hbound⟩ := he b rfl
    refine max_le hold ?_
    cases hn : b.nextXid with
    | none => exact Nat.zero_le _
    | some k => exact (hok.fold k hn).2.trans (hbound hseed n hlead)
  | scanLo => exact hold

end Updates

/-- The xid of a batch that does not carry the xid counter: the abort record of a transaction or
the marker of `join_global`. -/
def bareXid : Proposal Row → Option Xid
  | .batch b => if b.nextXid = none then some b.xid else none
  | .scanLo _ => none

/-- Such a batch is appended only when the durable counter has passed its xid. -/
def Folded (R : Range Row) (a : RangeAct Row) : Prop :=
  ∀ p ∈ R.appending a, ∀ x ∈ bareXid p, x < R.next

instance (R : Range Row) (a : RangeAct Row) : Decidable (Folded R a) := by
  unfold Folded
  infer_instance

section Steps

variable {R R' : Range Row} {n : NodeId} {s : SessionId} {a : Act Row} {glob : GlobalView}
  {act : RangeAct Row} {m : NodeId}

theorem owned_epochOf (R : Range Row) (n : NodeId) : Owned R n (R.epochOf n) := by
  unfold Owned epochOf
  split_ifs with hlead
  · exact ⟨le_rfl, fun _ _ m hm => (Option.some.inj (hlead.symm.trans hm)).symm⟩
  · exact ⟨Nat.zero_le _, fun h0 => absurd rfl h0⟩

theorem nextXid_le_move {env : Env} {v v' : View Row} (hm : Move env v a v') :
    v.pa.nextXid ≤ v'.pa.nextXid := by
  cases hm with
  | alloc => exact Nat.le_succ _
  | _ => exact le_rfl

/-- The counter of a node that does not restart does not fall. -/
theorem nextXid_le_step (hstep : R.step glob act = some R') (hboot : act ≠ .crash m) :
    (R.nodes m).pa.nextXid ≤ (R'.nodes m).pa.nextXid := by
  have hturn := turned_step hstep m
  generalize R'.nodes m = node at hturn
  cases hturn with
  | same | returned | advance => exact le_rfl
  | moved s a v lag hact ha hadm hmove => exact nextXid_le_move hmove
  | boot hact => exact absurd hact hboot
  | settle => exact le_max_left _ _
  | tends node hpa => rw [hpa]

theorem nextXid_le_leader (hstep : R.step glob act = some R') (hlead : R'.leader = some m) :
    (R.nodes m).pa.nextXid ≤ (R'.nodes m).pa.nextXid := by
  refine nextXid_le_step hstep ?_
  rintro rfl
  cases hstep
  exact (R.leader_crash m hlead).2 rfl

theorem durable_le_step (hstep : R.step glob act = some R') : R.next ≤ R'.next := by
  obtain ⟨ops, hops⟩ := tip_step hstep
  unfold Range.next
  rw [hops]
  exact durableNext_le_applyBatch _

theorem Owned.step {epoch : ℕ} (h : Owned R n epoch) (hstep : R.step glob act = some R') :
    Owned R' n epoch := by
  refine ⟨h.1.trans (term_le_step hstep), fun h0 ht m hm => ?_⟩
  rcases leader_before hstep hm with ⟨hl, hterm, -⟩ | ⟨-, rfl⟩
  · exact h.2 h0 (ht.trans hterm) m hl
  · exact absurd (ht.symm.trans_le h.1) (Nat.not_succ_le_self _)

theorem FlightOk.step {p : ℕ × LogEntry Row} (h : FlightOk R p)
    (hstep : R.step glob act = some R') : FlightOk R' p := by
  refine ⟨h.1.trans (term_le_step hstep), fun b hb => ?_⟩
  obtain ⟨next, hok, hbound⟩ := h.2 b hb
  refine ⟨next, hok.mono le_rfl (durable_le_step hstep), fun ht m hm => ?_⟩
  rcases leader_before hstep hm with ⟨hl, hterm, -⟩ | ⟨-, rfl⟩
  · exact (hbound (ht.trans hterm) m hl).trans (nextXid_le_leader hstep hm)
  · exact absurd (ht.symm.trans_le h.1) (Nat.not_succ_le_self _)

theorem canAppend_step (hstep : R.step glob act = some R') {p : ℕ × LogEntry Row}
    (hp : p ∈ R'.inflight) (h : R.canAppend p.1 = true) : R'.canAppend p.1 = true := by
  obtain ⟨h0, hterm⟩ := canAppend_iff.mp h
  refine canAppend_iff.mpr ⟨h0, fun hseed => ?_⟩
  cases leads_step hstep with
  | kept _ hterm' hseed' => exact (hterm (hseed' ▸ hseed)).trans hterm'.symm
  | settle n _ _ hterm' _ hflight => exact (hflight p hp).trans hterm'.symm
  | elect n heq =>
    subst heq
    cases hseed
  | crash n heq =>
    subst heq
    exact (hterm (R.seeded_crash n hseed)).trans (R.term_crash n).symm

theorem XidInv.appendable (h : XidInv R) (hok : Folded R act) {e : LogEntry Row}
    (ha : Appended R act e) : Appendable R e := by
  intro b hb
  have hfold : b.nextXid = none → b.xid < R.next := fun hn =>
    hok e.proposal ha.appending b.xid (by simp [bareXid, hb, hn])
  cases ha with
  | session n s b' epoch after lag hpc hcan =>
    cases hb
    refine ⟨hfold, _, ((h.sess n s).batch b epoch after hpc).1, fun hseed m hm => ?_⟩
    obtain ⟨h0, hterm⟩ := canAppend_iff.mp hcan
    rw [(h.epoch n s b epoch after hpc).2 h0 (hterm hseed) m hm]
  | flight i epoch e hget hcan =>
    obtain ⟨next, hok, hbound⟩ := (h.flight _ (mem_of_getElem? hget)).2 b hb
    exact ⟨hfold, next, hok, fun hseed => hbound ((canAppend_iff.mp hcan).2 hseed)⟩
  | watermark => cases hb

theorem XidInv.bounded_step (h : XidInv R) (hstep : R.step glob act = some R') (m : NodeId)
    (s : SessionId) : Bounded (R'.nodes m).pa.nextXid R'.next ((R'.nodes m).sessions s) := by
  have hnext := durable_le_step hstep
  have hold := (h.sess m s).mono le_rfl hnext
  have hturn := turned_step hstep m
  generalize R'.nodes m = node at hturn
  cases hturn with
  | same | advance => exact hold
  | settle => exact hold.mono (le_max_left _ _) le_rfl
  | boot => exact bounded_new
  | tends node hpa hsess =>
    rw [hpa, hsess]
    exact hold
  | returned s' b epoch after ok lag applied hact hpc =>
    by_cases hs : s = s'
    · subst hs
      simp only [returnedNode, update_self]
      exact hold.returned hpc ok
    · simp only [returnedNode, update_of_ne hs]
      exact hold
  | moved s' a v lag hact ha hadm hmove =>
    by_cases hs : s = s'
    · subst hs
      simp only [movedNode, Node.set, update_self]
      exact (Move.bounded hmove (storeAt_xmin_lt h _) (h.sess m s)).mono le_rfl hnext
    · simp only [movedNode, Node.set, update_of_ne hs]
      exact hold.mono (nextXid_le_move hmove) le_rfl

theorem xidInv_step (h : XidInv R) (hok : Folded R act) (hstep : R.step glob act = some R') :
    XidInv R' := by
  have hlog : R'.log = R.log ∧ R'.tip = R.tip ∨
      ∃ e, Appendable R e ∧ R'.log = R.log ++ [e] ∧ R'.tip = (R.append e).tip := by
    rcases log_step hstep with hlog | ⟨e, ha, hlog⟩
    · exact .inl ⟨hlog, by simp [tip, hlog]⟩
    · exact .inr ⟨e, h.appendable hok ha, hlog, by simp [tip, append, hlog]⟩
  refine ⟨?_, fun x hx => ?_, fun m hm hseed => ?_, h.bounded_step hstep,
    fun n s b epoch after hpc => ?_, fun p hp => ?_, fun p hp => ?_⟩
  · rcases hlog with ⟨hlog, -⟩ | ⟨e, he, hlog, -⟩
    · rw [hlog]
      exact h.formed
    · simpa [hlog, or_imp, forall_and] using ⟨h.formed, formed_appendable he⟩
  · unfold Range.next
    rcases hlog with ⟨-, htip⟩ | ⟨e, he, -, htip⟩ <;> rw [htip] at hx ⊢
    · exact h.named x hx
    · exact h.named_append he hx
  · have hmono := nextXid_le_leader hstep hm
    have hstay : R.leader = some m → R.seeded = true → R'.next ≤ (R.nodes m).pa.nextXid := by
      intro hl hseed
      unfold Range.next
      rcases hlog with ⟨-, htip⟩ | ⟨e, he, -, htip⟩ <;> rw [htip]
      · exact h.lead m hl hseed
      · exact h.lead_append he hl hseed
    cases leads_step hstep with
    | kept hlead _ hseed' => exact (hstay (hlead ▸ hm) (hseed' ▸ hseed)).trans hmono
    | settle n hn hlead _ _ _ hnode =>
      -- the counter of the node is reseeded from its store
      cases (hlead.symm.trans hm).symm.trans hn
      rw [hnode]
      rcases log_step hstep with hlog | ⟨e, ha, -⟩
      · refine le_trans (le_of_eq ?_) (le_max_right _ _)
        simp [Range.next, tip, hlog]
      · cases ha
    | elect n heq =>
      subst heq
      cases hseed
    | crash n heq =>
      subst heq
      exact (hstay (R.leader_crash n hm).1 (R.seeded_crash n hseed)).trans hmono
  · have hb := became_step hstep n s
    change (R'.sess n s).pc = _ at hpc
    generalize R'.sess n s = u at hb hpc
    cases hb with
    | same => exact (h.epoch n s b epoch after hpc).step hstep
    | new => cases hpc
    | returned => exact absurd hpc (returned_not_committing _ _ _ _)
    | moved a v lag hact ha hadm hmove =>
      rw [(Move.committing hmove (h.sess n s).coherent hpc).1]
      exact (owned_epochOf R n).step hstep
  · rcases inflight_step hstep hp with hp | ⟨n, s, b, after, lag, hact, hpc, hcan, he⟩ |
      ⟨n, term, lo, -, -, -, rfl⟩
    · exact (h.flight p hp).step hstep
    · have howned := h.epoch n s b p.1 after hpc
      refine FlightOk.step ⟨howned.1, fun b' hb' => ?_⟩ hstep
      rw [he] at hb'
      cases hb'
      refine ⟨_, ((h.sess n s).batch b p.1 after hpc).1, fun ht m hm => ?_⟩
      rw [howned.2 (canAppend_iff.mp hcan).1 ht m hm]
    · exact FlightOk.step ⟨(owned_epochOf R n).1, by simp⟩ hstep
  · refine canAppend_step hstep hp ?_
    rcases inflight_step hstep hp with hp | ⟨n, s, b, after, -, -, -, hcan, -⟩ |
      ⟨n, term, lo, -, -, hcan, rfl⟩
    · exact h.current p hp
    · exact hcan
    · exact hcan

theorem xidInv_initial : XidInv (initial : Range Row) where
  formed e he := by cases he
  named x hx := by
    rcases hx with hx | ⟨k, hk⟩
    · simp [tip, initial, Store.empty] at hx
    · exact absurd (version_empty k x) hk
  lead m hm := by cases hm
  sess n s := bounded_new
  epoch n s b epoch after hpc := by cases hpc
  flight p hp := by cases hp
  current p hp := by cases hp

end Steps

end Crabgresql.Cluster
