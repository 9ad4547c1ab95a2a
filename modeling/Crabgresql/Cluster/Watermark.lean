import Crabgresql.Cluster.Reuse

/-!
# The recovery watermark

A sweep that finds no marker in doubt moves the watermark one past the largest
xid it scanned, and later sweeps start there. Markers are not written in xid
order: a transaction writes its marker when it joins a global transaction, which
may be long after it took its xid. The watermark stays below every marker in
doubt as long as no marker is written below a watermark that is in force or
about to be.
-/

namespace Crabgresql.Cluster

open Mvcc Kv Procarray Lockmgr Exec Session Engine Recovery List Range MultiRangeCluster

variable {Row : Type}
variable {n : NodeId} {g x : Xid} {w : ℕ} {e : LogEntry Row} {node : Node Row}

/-- `x` carries a marker for `g`, and range 0 has not decided `g`. -/
@[mk_iff]
structure Undecided (glob : GlobalView) (kv : Store Row) (x g : Xid) : Prop where
  marker : kv.clogGet x = .prepared g
  pending : (glob.clog g).isTerminal = false
  isLocal : x < globalXidBase

instance {glob : GlobalView} {kv : Store Row} : Decidable (Undecided glob kv x g) :=
  decidable_of_iff _ (undecided_iff glob kv x g).symm

def Sweep.term : Sweep → Option ℕ
  | .idle => none
  | .seeded T | .relocked T _ | .racing T _ _ _ _ | .unlocked T _ | .advancing T _ | .settled T =>
    some T

/-- The xid below which a sweep takes every marker to be decided. -/
def Sweep.lo : Sweep → Option ℕ
  | .racing _ _ lo _ _ | .unlocked _ lo | .advancing _ lo => some lo
  | _ => none

/-- The sweep of node `m` and its gate stay, or the sweep ends and may open the gate for its term,
or it goes on or starts. -/
def Range.Gates (R R' : Range Row) (m : NodeId) : Prop :=
  ((R'.nodes m).sweep = (R.nodes m).sweep ∧ (R'.nodes m).served = (R.nodes m).served) ∨
  ((R'.nodes m).sweep = .idle ∧ ((R'.nodes m).served = (R.nodes m).served ∨
    (R'.nodes m).served = 0 ∧ R'.leader ≠ some m ∨
    (R.nodes m).sweep.term = some (R'.nodes m).served)) ∨
  ((∃ t, (R.nodes m).sweep.term = some t ∧ (R'.nodes m).sweep.term = some t) ∨
    (R'.nodes m).sweep.term = some R.term ∧ (R.nodes m).served ≠ R.term ∧ R'.seeded = true) ∧
  (R'.nodes m).served = (R.nodes m).served

theorem Range.gates_step {R R' : Range Row} {glob : GlobalView} {act : RangeAct Row}
    (h : R.step glob act = some R') (m : NodeId) : Gates R R' m := by
  have hturn := turned_step h m
  unfold Gates
  generalize R'.nodes m = node at hturn
  cases hturn with
  | same | returned | moved => exact .inl ⟨rfl, rfl⟩
  | boot hact =>
    subst hact
    cases h
    exact .inr (.inl ⟨rfl, .inr (.inl ⟨rfl, fun hl => (R.leader_crash m hl).2 rfl⟩)⟩)
  | settle hact hlead hclosed =>
    subst hact
    refine .inr (.inr ⟨.inr ⟨rfl, hclosed, ?_⟩, rfl⟩)
    cases step_cases h with
    | settle => rfl
    | tended _ _ _ _ _ _ ht => cases ht
  | advance term lo applied ok hact hold =>
    exact .inr (.inr ⟨.inl ⟨term, by rw [hold]; rfl, rfl⟩, rfl⟩)
  | tends node hpa hsess hintent ht =>
    cases ht with
    | catchUp => exact .inl ⟨rfl, rfl⟩
    | relock lag term hsweep | scan lag term inDoubt hsweep
    | raced ok term inDoubt lo g gs resolved hsweep | unlock term inDoubt lo resolved hsweep =>
      exact .inr (.inr ⟨.inl ⟨term, by rw [hsweep]; rfl, rfl⟩, rfl⟩)
    | rescan lag term lo sweep hsweep hnext =>
      obtain rfl | ⟨-, rfl | rfl⟩ := hnext
      · exact .inr (.inl ⟨rfl, .inl rfl⟩)
      · exact .inr (.inr ⟨.inl ⟨term, by rw [hsweep]; rfl, rfl⟩, rfl⟩)
      · exact .inr (.inr ⟨.inl ⟨term, by rw [hsweep]; rfl, rfl⟩, rfl⟩)
    | serve term hsweep => exact .inr (.inl ⟨rfl, .inr (.inr (by rw [hsweep]; rfl))⟩)
    | giveUp => exact .inr (.inl ⟨rfl, .inl rfl⟩)

section Gates

variable {R R' : Range Row} {m : NodeId} (h : Gates R R' m)
include h

theorem Range.Gates.term_le {t : ℕ} (hterms : ∀ t, (R.nodes m).sweep.term = some t → t ≤ R.term)
    (ht : (R'.nodes m).sweep.term = some t) : t ≤ R.term := by
  rcases h with ⟨hs, -⟩ | ⟨hs, -⟩ | ⟨⟨t', ht', hs⟩ | ⟨hs, -⟩, -⟩ <;> rw [hs] at ht
  · exact hterms t ht
  · cases ht
  · cases ht
    exact hterms _ ht'
  · cases ht
    exact le_rfl

theorem Range.Gates.served_le (hterms : ∀ t, (R.nodes m).sweep.term = some t → t ≤ R.term)
    (hserved : (R.nodes m).served ≤ R.term) : (R'.nodes m).served ≤ R.term := by
  rcases h with ⟨-, hs⟩ | ⟨-, hs | ⟨hs, -⟩ | hs⟩ | ⟨-, hs⟩
  · exact hs.trans_le hserved
  · exact hs.trans_le hserved
  · exact hs.trans_le (Nat.zero_le _)
  · exact hterms _ hs
  · exact hs.trans_le hserved

theorem Range.Gates.idle (hidle : (R.nodes m).served = R.term → (R.nodes m).sweep = .idle)
    (hs : (R'.nodes m).served = R.term) : (R'.nodes m).sweep = .idle := by
  rcases h with ⟨hsweep, hold⟩ | ⟨hsweep, -⟩ | ⟨⟨t, ht, -⟩ | ⟨-, hclosed, -⟩, hold⟩
  · exact hsweep.trans (hidle (hold ▸ hs))
  · exact hsweep
  · rw [hidle (hold ▸ hs)] at ht
    cases ht
  · exact absurd (hold ▸ hs) hclosed

/-- No sweep runs behind an open gate, so that it stays open. -/
theorem Range.Gates.served (hidle : (R.nodes m).sweep = .idle) (hlead : R'.leader = some m) :
    (R'.nodes m).served = (R.nodes m).served := by
  rcases h with ⟨-, hs⟩ | ⟨-, hs | ⟨-, hne⟩ | hs⟩ | ⟨-, hs⟩
  · exact hs
  · exact hs
  · exact absurd hlead hne
  · rw [hidle] at hs
    cases hs
  · exact hs

end Gates

def Proposal.lo : Proposal Row → Option ℕ
  | .scanLo lo => some lo
  | .batch _ => none

/-- The watermark of the leader's own sweep, if it is the one of the current term. -/
def Range.sweepLo (R : Range Row) : Option ℕ :=
  match R.leader with
  | some n => if (R.nodes n).sweep.term = some R.term then (R.nodes n).sweep.lo else none
  | none => none

def Range.watermarks (R : Range Row) : List ℕ :=
  clogScanLo R.tip :: R.sweepLo.toList ++ R.inflight.filterMap fun p => p.2.proposal.lo

def markerXid : Proposal Row → Option Xid
  | .batch b =>
    match b.outcome with
    | some (.prepared _) => some b.xid
    | _ => none
  | .scanLo _ => none

/-- A sweep of the current term reads the whole log, and only such a sweep moves the watermark. -/
def Timely (R : Range Row) : RangeAct Row → Prop
  | .scan n _ | .rescan n _ =>
    R.leader = some n → (R.nodes n).sweep.term = some R.term → (R.nodes n).applied = R.log.length
  | .advance n _ => (R.nodes n).sweep.term = some R.term
  | _ => True

instance (R : Range Row) (act : RangeAct Row) : Decidable (Timely R act) := by
  induction act using RangeAct.casesOn <;> unfold Timely <;> infer_instance

/-- No marker is written below a watermark. -/
def Unpassed (R : Range Row) (act : RangeAct Row) : Prop :=
  (∀ p ∈ R.appending act, ∀ x ∈ markerXid p, ∀ w ∈ R.watermarks, w ≤ x) ∧ Timely R act

instance (R : Range Row) (act : RangeAct Row) : Decidable (Unpassed R act) := by
  unfold Unpassed
  infer_instance

section Scans

variable {kv : Store Row} {glob : GlobalView}

theorem mem_inDoubtGlobalsFrom {lo : ℕ} (h : Undecided glob kv x g) (hlo : lo ≤ x) :
    g ∈ (inDoubtGlobalsFrom kv glob lo).1 := by
  have hscan : (x, .prepared g) ∈ clogScan kv lo :=
    mem_clogScan.mpr ⟨clogGet_prepared.mp h.marker, hlo, h.isLocal⟩
  have hopen : (x, g) ∈ inDoubt glob (clogScan kv lo) := mem_inDoubt.mpr ⟨hscan, h.pending⟩
  simp only [inDoubtGlobalsFrom, mem_insertionSort, mem_dedup]
  exact List.mem_map.mpr ⟨_, hopen, rfl⟩

theorem pending_recordDecision {g' : Xid} {commit : Bool}
    (h : ((recordDecision glob g commit).clog g').isTerminal = false) :
    (glob.clog g').isTerminal = false := by
  unfold recordDecision at h
  by_cases hterm : (glob.clog g).isTerminal = true
  · rw [if_pos hterm] at h
    exact h
  · rw [if_neg hterm] at h
    by_cases hg : g' = g
    · rw [hg]
      exact Bool.not_eq_true _ ▸ hterm
    · simpa [hg] using h

theorem Undecided.view (h : Undecided glob kv x g) (lag : Lag) :
    Undecided (lag.view glob) kv x g where
  marker := h.marker
  pending := by
    simp only [Lag.view]
    split_ifs
    · rfl
    · exact h.pending
  isLocal := h.isLocal

theorem counters_applyOp_ne {op : WriteOp Row} {k : CounterKey} (h : ∀ n, op ≠ .counter k n) :
    (applyOp kv op).counters k = kv.counters k := by
  cases op with
  | version => rfl
  | clog =>
    simp only [applyOp]
    split_ifs <;> rfl
  | counter k' n =>
    have hne : k ≠ k' := fun hk => h n (by rw [hk])
    simp only [applyOp]
    split_ifs <;> simp [hne]

theorem counters_applyBatch_ne {ops : List (WriteOp Row)} {k : CounterKey}
    (h : ∀ op ∈ ops, ∀ n, op ≠ .counter k n) : (applyBatch kv ops).counters k = kv.counters k := by
  induction ops generalizing kv with
  | nil => rfl
  | cons op ops ih =>
    rw [applyBatch_cons, ih fun o ho => h o (mem_cons_of_mem _ ho),
      counters_applyOp_ne (h op mem_cons_self)]

theorem clogScanLo_applyBatch_ops {b : Batch Row} (hseq : SeqOnly b.seqOps) :
    clogScanLo (applyBatch kv b.ops) = clogScanLo kv := by
  unfold clogScanLo
  rw [counters_applyBatch_ne]
  intro op hop n
  rw [ops_eq] at hop
  rcases mem_append.mp hop with hop | hop
  · rcases mem_append.mp hop with hop | hop
    · obtain ⟨t, m, rfl⟩ := hseq op hop
      simp
    · obtain ⟨c, -, hc⟩ := mem_flatMap.mp hop
      obtain ⟨k, y, t, rfl, -⟩ := mem_changeOps hc
      simp
  · rcases mem_append.mp hop with hop | hop
    · unfold Batch.clogOps at hop
      split at hop
      · obtain rfl := mem_singleton.mp hop
        simp
      · cases hop
    · unfold Batch.nextXidOps at hop
      split at hop
      · obtain rfl := mem_singleton.mp hop
        simp
      · cases hop

end Scans

def pcSeqOps : Pc Row → List (WriteOp Row)
  | .scanning f | .looping f | .acquiring f _ | .locked f _ => f.seqOps
  | .committing b _ _ => b.seqOps
  | _ => []

theorem Move.seqOnly {env : Env} {v v' : View Row} {a : Act Row} (hm : Move env v a v')
    (h : SeqOnly (pcSeqOps v.self.pc)) : SeqOnly (pcSeqOps v'.self.pc) := by
  cases hm with
  | read w x auto f txn hpc hx hw hauto htodo hchanges hops =>
    change SeqOnly f.seqOps
    rw [hops]
    exact seqOnly_nil
  | fill f t rows cs seq n => exact fun op hop => ⟨t, n, mem_singleton.mp hop⟩
  | walk a f todo hpc =>
    rcases hpc with hpc | hpc | ⟨r, hpc⟩ <;> rw [hpc] at h <;> exact h
  | target f todo r hpc | grant f r pick lm hpc | take f r found c hpc | submit f hpc
  | stage f c rows marker hpc =>
    rw [hpc] at h
    exact h
  | wait f r pick lm hpc ho => exact h
  | fail a f e lm seq hpc hlm =>
    simp only [failPc]
    split_ifs <;> exact seqOnly_nil
  | done f hpc hw =>
    simp only
    split_ifs <;> exact seqOnly_nil
  | apply ok b epoch after hpc =>
    cases after <;> cases ok <;> simp only [Sess.returned] <;> try split_ifs
    all_goals exact seqOnly_nil
  | _ => exact seqOnly_nil

theorem seqOnly_returned (u : Sess Row) (b : Batch Row) (after : After) (ok : Bool) :
    SeqOnly (pcSeqOps (u.returned b after ok).pc) := by
  cases after <;> cases ok <;> simp only [Sess.returned] <;> try split_ifs
  all_goals exact seqOnly_nil

/-- What keeps the watermarks below the markers in doubt. -/
structure Guarded (glob : GlobalView) (R : Range Row) : Prop where
  sess : ∀ n s, SeqOnly (pcSeqOps (R.sess n s).pc)
  flight : ∀ p ∈ R.inflight, ∀ b, p.2.proposal = .batch b → SeqOnly b.seqOps
  terms : ∀ n T, (R.nodes n).sweep.term = some T → T ≤ R.term
  replica : ∀ i x g, Undecided glob (R.storeAt i) x g → clogScanLo (R.storeAt i) ≤ x
  ahead : ∀ x g, Undecided glob R.tip x g → ∀ w ∈ R.watermarks, w ≤ x

section Watermarks

variable {glob : GlobalView} {R R' : Range Row}

theorem mem_sweepLo :
    R.sweepLo = some w ↔ ∃ n, R.leader = some n ∧ (R.nodes n).sweep.term = some R.term ∧
      (R.nodes n).sweep.lo = some w := by
  unfold sweepLo
  cases R.leader with
  | none => simp
  | some =>
    simp only [Option.some.injEq, exists_eq_left']
    split_ifs with ht <;> simp [ht]

theorem proposal_lo_eq {p : Proposal Row} : p.lo = some w ↔ p = .scanLo w := by
  cases p <;> simp [Proposal.lo]

theorem mem_watermarks : w ∈ R.watermarks ↔ w = clogScanLo R.tip ∨ R.sweepLo = some w ∨
      ∃ p ∈ R.inflight, p.2.proposal = .scanLo w := by
  simp only [watermarks, cons_append, mem_cons, mem_append,
    Option.mem_toList, mem_filterMap, proposal_lo_eq]

theorem mem_watermarks_of_sweep (hlead : R.leader = some n)
    (hterm : (R.nodes n).sweep.term = some R.term) (hlo : (R.nodes n).sweep.lo = some w) :
    w ∈ R.watermarks :=
  mem_watermarks.mpr (.inr (.inl (mem_sweepLo.mpr ⟨n, hlead, hterm, hlo⟩)))

theorem undecided_append (hseq : ∀ b, e.proposal = .batch b → SeqOnly b.seqOps)
    (h : Undecided glob (R.append e).tip x g) : Undecided glob R.tip x g ∨
      ∃ b, e.proposal = .batch b ∧ b.xid = x ∧ b.outcome = some (.prepared g) := by
  obtain ⟨hmark, hpend, hloc⟩ := h
  rw [tip_append] at hmark
  obtain ⟨proposal, staged⟩ := e
  cases proposal with
  | scanLo lo =>
    refine .inl ⟨?_, hpend, hloc⟩
    exact (clogGet_applyOp R.tip (.counter .clogScanLo lo) x).symm.trans hmark
  | batch b =>
    simp only [Proposal.ops] at hmark
    rw [clogGet_applyBatch_ops (hseq b rfl)] at hmark
    cases hout : b.outcome with
    | none =>
      rw [hout] at hmark
      exact .inl ⟨hmark, hpend, hloc⟩
    | some =>
      rw [hout] at hmark
      simp only [keepTerminal] at hmark
      split_ifs at hmark with hx ht
      · exact .inl ⟨hmark, hpend, hloc⟩
      · exact .inr ⟨b, rfl, hx, hout.trans (congrArg some hmark)⟩
      · exact .inl ⟨hmark, hpend, hloc⟩

theorem clogScanLo_append (hseq : ∀ b, e.proposal = .batch b → SeqOnly b.seqOps) :
    clogScanLo (R.append e).tip = clogScanLo R.tip ∨
      e.proposal = .scanLo (clogScanLo (R.append e).tip) := by
  rw [tip_append]
  obtain ⟨proposal, staged⟩ := e
  cases proposal with
  | batch b => exact .inl (clogScanLo_applyBatch_ops (hseq b rfl))
  | scanLo =>
    refine .inr ?_
    simp [Proposal.ops, applyBatch, applyOp, isCounterKey, clogScanLo]

end Watermarks

section Steps

variable {glob : GlobalView} {R R' : Range Row} {act : RangeAct Row}

theorem Guarded.origin (h : Guarded glob R) (ho : Appended R act e) (b : Batch Row)
    (hb : e.proposal = .batch b) : SeqOnly b.seqOps := by
  cases ho with
  | session n s b' epoch after lag hpc =>
    cases hb
    have hs := h.sess n s
    rw [hpc] at hs
    exact hs
  | flight i epoch e hget => exact h.flight _ (mem_of_getElem? hget) b hb
  | watermark => cases hb

theorem Guarded.rescanned (h : Guarded glob R) {lag : Lag} {lo : ℕ} (hlead : R.leader = some n)
    (hterm : (R.nodes n).sweep.term = some R.term) (hlo : (R.nodes n).sweep.lo = some lo)
    (happlied : (R.nodes n).applied = R.log.length)
    (hnone : (inDoubtGlobalsFrom (R.storeAt (R.nodes n).applied) (lag.view glob) lo).1 = [])
    (x g : Xid) : ¬ Undecided glob R.tip x g := by
  intro hu
  have hle : lo ≤ x := h.ahead x g hu lo (mem_watermarks_of_sweep hlead hterm hlo)
  have hmem := mem_inDoubtGlobalsFrom (hu.view lag) hle
  rw [happlied, storeAt_length] at hnone
  rw [hnone] at hmem
  cases hmem

theorem Guarded.sweeping (h : Guarded glob R) (hok : Timely R act)
    (hstep : R.step glob act = some R') (hw : R'.sweepLo = some w) :
    w ∈ R.watermarks ∨ R'.log = R.log ∧ ∀ x g, ¬ Undecided glob R.tip x g := by
  obtain ⟨m, hlead, ht, hl⟩ := mem_sweepLo.mp hw
  have hkept := (leader_before hstep hlead).resolve_right fun ⟨_, heq⟩ => by
    -- no sweep has passed the barrier of the new term
    subst heq
    exact absurd (h.terms m (R.term + 1) ht) (Nat.not_succ_le_self _)
  rw [hkept.2.1] at ht
  have hturn := turned_step hstep m
  generalize R'.nodes m = node at hturn ht hl
  cases hturn with
  | same | returned | moved => exact .inl (mem_watermarks_of_sweep hkept.1 ht hl)
  | boot | settle | advance => cases hl
  | tends node hpa hsess hintent htends =>
    cases htends with
    | catchUp => exact .inl (mem_watermarks_of_sweep hkept.1 ht hl)
    | scan lag term inDoubt hsweep =>
      cases hl
      rw [hok hkept.1 (by rw [hsweep]; exact ht), storeAt_length]
      exact .inl (mem_watermarks.mpr (.inl rfl))
    | raced ok term inDoubt lo g gs resolved hsweep | unlock term inDoubt lo resolved hsweep =>
      exact .inl
        (mem_watermarks_of_sweep hkept.1 (by rw [hsweep]; exact ht) (by rw [hsweep]; exact hl))
    | rescan lag term lo sweep hsweep hnext =>
      obtain rfl | ⟨hnone, rfl | rfl⟩ := hnext
      · cases hl
      · cases hl
      · have hterm : (R.nodes m).sweep.term = some R.term := by
          rw [hsweep]
          exact ht
        exact .inr ⟨(log_step hstep).resolve_right (fun ⟨e, ho, _⟩ => by cases ho),
          h.rescanned hkept.1 hterm (by rw [hsweep]; rfl) (hok hkept.1 hterm) hnone⟩
    | relock | serve | giveUp => cases hl

theorem Guarded.watermark (h : Guarded glob R) (hok : Timely R act)
    (hstep : R.step glob act = some R') (hw : w ∈ R'.watermarks) :
    w ∈ R.watermarks ∨ R'.log = R.log ∧ ∀ x g, ¬ Undecided glob R.tip x g := by
  rcases mem_watermarks.mp hw with rfl | hw | ⟨p, hp, hw⟩
  · refine .inl ?_
    rcases log_step hstep with hlog | ⟨e, ho, hlog⟩
    · exact mem_watermarks.mpr (.inl (by simp [tip, hlog]))
    · rw [show R'.tip = (R.append e).tip by simp [tip, append, hlog]]
      rcases clogScanLo_append (R := R) (h.origin ho) with heq | heq
      · exact mem_watermarks.mpr (.inl heq)
      · generalize clogScanLo (R.append e).tip = lo at heq ⊢
        cases ho with
        | session => cases heq
        | flight i epoch e hget =>
          exact mem_watermarks.mpr (.inr (.inr ⟨_, mem_of_getElem? hget, heq⟩))
        | watermark n term lo' hsweep hlead =>
          cases heq
          exact mem_watermarks_of_sweep hlead hok (by rw [hsweep]; rfl)
  · exact h.sweeping hok hstep hw
  · refine .inl ?_
    rcases inflight_step hstep hp with hp | ⟨n, s, b, after, -, -, -, -, he⟩ |
      ⟨n, term, lo, hsweep, rfl, hcan, rfl⟩
    · exact mem_watermarks.mpr (.inr (.inr ⟨p, hp, hw⟩))
    · rw [he] at hw
      cases hw
    · -- a proposal that stays in flight was made by the leader
      cases hw
      have hlead : R.leader = some n := by
        by_contra hne
        simp [epochOf, hne, canAppend] at hcan
      exact mem_watermarks_of_sweep hlead hok (by rw [hsweep]; rfl)

theorem guarded_step (h : Guarded glob R) (hok : Unpassed R act)
    (hstep : R.step glob act = some R') : Guarded glob R' := by
  have hahead : ∀ x g, Undecided glob R'.tip x g → ∀ w ∈ R'.watermarks, w ≤ x := by
    intro x g hu w hw
    have hw := h.watermark hok.2 hstep hw
    rcases log_step hstep with hlog | ⟨e, ho, hlog⟩
    · rw [show R'.tip = R.tip by simp [tip, hlog]] at hu
      exact h.ahead x g hu w (hw.resolve_right fun hnone => hnone.2 x g hu)
    · have hw := hw.resolve_right fun hsame => by simp [hsame.1] at hlog
      rw [show R'.tip = (R.append e).tip by simp [tip, append, hlog]] at hu
      rcases undecided_append (h.origin ho) hu with hu | ⟨b, hb, rfl, hout⟩
      · exact h.ahead x g hu w hw
      · exact hok.1 e.proposal ho.appending b.xid (by simp [markerXid, hb, hout]) w hw
  refine ⟨fun n s => ?_, fun p hp b hb => ?_, fun n T hT => ?_, fun i x g hu => ?_, hahead⟩
  · have hb := became_step hstep n s
    generalize R'.sess n s = u at hb
    cases hb with
    | same => exact h.sess n s
    | new => exact seqOnly_nil
    | returned b epoch after ok => exact seqOnly_returned _ b after ok
    | moved a v lag hact ha hadm hmove => exact Move.seqOnly hmove (h.sess n s)
  · rcases inflight_step hstep hp with hp | ⟨n, s, b', after, -, -, hpc, -, he⟩ | ⟨n, term, lo, -, -, -, rfl⟩
    · exact h.flight p hp b hb
    · rw [he] at hb
      cases hb
      have hs := h.sess n s
      rw [hpc] at hs
      exact hs
    · cases hb
  · exact ((gates_step hstep n).term_le (h.terms n) hT).trans (term_le_step hstep)
  · rcases log_step hstep with hlog | ⟨e, ho, hlog⟩
    · rw [show R'.storeAt i = R.storeAt i by simp [storeAt, hlog]] at hu ⊢
      exact h.replica i x g hu
    · have hstore : R'.storeAt i = (R.append e).storeAt i := by simp [storeAt, append, hlog]
      rcases le_or_gt i R.log.length with hi | hi
      · rw [hstore, R.storeAt_append_le e hi] at hu ⊢
        exact h.replica i x g hu
      · rw [hstore, R.storeAt_append_gt e hi,
          show (R.append e).tip = R'.tip by simp [tip, append, hlog]] at hu ⊢
        exact hahead x g hu _ (mem_watermarks.mpr (.inl rfl))

theorem guarded_initial (glob : GlobalView) : Guarded glob (Range.initial : Range Row) where
  sess n s := seqOnly_nil
  flight p hp := by cases hp
  terms n T hT := by cases hT
  replica i x g hu := by simp [storeAt, Range.initial, clogScanLo, Store.empty, applyBatch]
  ahead x g hu w hw := by
    have hmark := hu.marker
    simp [tip, Range.initial] at hmark

theorem Guarded.decide (h : Guarded glob R) (g : Xid) (commit : Bool) :
    Guarded (recordDecision glob g commit) R := by
  have hback : ∀ {kv : Store Row} {x g'}, Undecided (recordDecision glob g commit) kv x g' →
      Undecided glob kv x g' := fun hu => ⟨hu.marker, pending_recordDecision hu.pending, hu.isLocal⟩
  exact ⟨h.sess, h.flight, h.terms, fun i x g' hu => h.replica i x g' (hback hu),
    fun x g' hu => h.ahead x g' (hback hu)⟩

end Steps

theorem guarded_exec {acts : List (ClusterAct Row)} {C : MultiRangeCluster Row}
    (h : Runs.exec step initial acts = some C)
    (hok : Runs.Along step (OnRange fun _ => Unpassed) .initial acts)
    (r : RangeId) : Guarded C.glob (C.ranges r) :=
  range_invariant (I := Guarded) (fun _ _ _ _ hI hs hstep => guarded_step hI hs hstep)
    (fun _ _ g commit hI => hI.decide g commit) (guarded_initial _) hok h

/-- On every replica, every marker in doubt is at or above the watermark, and a scan from the
watermark finds its global transaction. -/
theorem clogScanLo_le_undecided {acts : List (ClusterAct Row)} {C : MultiRangeCluster Row}
    (h : Runs.exec step initial acts = some C)
    (hok : Runs.Along step (OnRange fun _ => Unpassed) .initial acts)
    (r : RangeId) (i : ℕ) {x g : Xid} (hu : Undecided C.glob ((C.ranges r).storeAt i) x g) :
    clogScanLo ((C.ranges r).storeAt i) ≤ x ∧
      ∀ lag : Lag, g ∈ (inDoubtGlobalsFrom ((C.ranges r).storeAt i) (lag.view C.glob)
        (clogScanLo ((C.ranges r).storeAt i))).1 := by
  have hle := (guarded_exec h hok r).replica i x g hu
  exact ⟨hle, fun lag => mem_inDoubtGlobalsFrom (hu.view lag) hle⟩

section Runs

def insertAlone (s : SessionId) : List (RangeAct ℕ) :=
  calls 0 s [.start insertOne, .takeSnapshot, .scan, .propose, .apply true, .finish, .release]

/-- Session 0 writes under xid 1, another transaction commits under xid 2, and the node is elected
again and sweeps. Then session 0 joins a global transaction. -/
def lateMarkerRun : List (ClusterAct ℕ) :=
  onRange 0 (openGate 0 false ++
    calls 0 0 [.begin false, .start insertOne, .takeSnapshot, .scan, .propose, .apply true] ++
    insertAlone 1 ++ openGate 0 true ++ calls 0 0 [.join globalXidBase, .apply true])

def freshMarkerRun : List (ClusterAct ℕ) :=
  onRange 0 (openGate 0 false ++ insertAlone 1 ++ openGate 0 true ++
    calls 0 0 [.begin false, .join globalXidBase, .start insertOne, .takeSnapshot, .scan, .propose,
      .apply true])

end Runs

/-- The marker of xid 1 is in doubt, the watermark is 3, and a scan from it finds nothing. -/
theorem clogScanLo_passes_marker : ∃ C : MultiRangeCluster ℕ,
      Runs.exec step initial lateMarkerRun = some C ∧
      Undecided C.glob (C.ranges 0).tip 1 globalXidBase ∧ clogScanLo (C.ranges 0).tip = 3 ∧
      (inDoubtGlobalsFrom (C.ranges 0).tip C.glob (clogScanLo (C.ranges 0).tip)).1 = [] :=
  Runs.exists_some (by decide +kernel)

/-- The watermark has moved to 2, and the marker of xid 2 is found from there. -/
theorem clogScanLo_le_fresh_marker : ∃ C : MultiRangeCluster ℕ,
      Runs.exec step initial freshMarkerRun = some C ∧
      clogScanLo (C.ranges 0).tip = 2 ∧
      globalXidBase ∈ (inDoubtGlobalsFrom (C.ranges 0).tip (noLag.view C.glob) 2).1 := by
  obtain ⟨C, hC, hundecided, hlo⟩ :
      ∃ C ∈ Runs.exec step initial freshMarkerRun,
        Undecided C.glob (C.ranges 0).tip 2 globalXidBase ∧ clogScanLo (C.ranges 0).tip = 2 := by
    decide +kernel
  have hok : Runs.Along step (OnRange fun _ => Unpassed)
      (initial : MultiRangeCluster ℕ) freshMarkerRun := by decide +kernel
  rw [← storeAt_length] at hundecided
  have hscan := (clogScanLo_le_undecided hC hok 0 _ hundecided).2 noLag
  rw [storeAt_length, hlo] at hscan
  exact ⟨C, hC, hlo, hscan⟩

end Crabgresql.Cluster
