import Crabgresql.Reads
import Crabgresql.Cluster.Acks

/-!
# Reads across leader changes

The read barrier brings the store of the leader up to date; what a read sees in
it is decided by a snapshot of the leader's in-memory registry. The snapshot sees
every acknowledged commit once the xid counter has been lifted to the durable one,
by the task that runs on a rise to leadership or by the settling of the term. In
between a read misses them.
-/

namespace Crabgresql.Cluster

open Mvcc Kv Procarray Lockmgr Exec Session Engine Recovery Reads Range Runs ProcArray

variable {Row : Type}
variable {y : Xid} {j : ℕ}

/-- `reseed_counters` of the task that watches for a rise to leadership. It does not wait for the
log. -/
def Range.reseed (R : Range Row) (n : NodeId) : Range Row :=
  let node := R.nodes n
  R.setNode n { node with
    pa := node.pa.reseedFromApplied (R.storeAt node.applied)
    seq := node.seq.reseedFromApplied }

/-- A step of the range, with the decisions of range 0 as they are then, or a reseed. -/
inductive LeaderAct (Row : Type)
  | on (glob : GlobalView) (a : RangeAct Row)
  | reseed (n : NodeId)

def leaderStep (R : Range Row) : LeaderAct Row → Option (Range Row)
  | .on glob a => R.step glob a
  | .reseed n => some (R.reseed n)

/-- The put replaces a version that a committed transaction has superseded. -/
def overwrites (kv : Store Row) : WriteOp Row → Bool
  | .version k _ =>
    (kv.version k.rowKey k.xid).any fun u => decide (kv.clogGet u.xmax = .committed)
  | _ => false

def Respects (R : Range Row) (a : RangeAct Row) : Prop :=
  ∀ p ∈ R.appending a, ∀ op ∈ p.ops, overwrites R.tip op = false

instance (R : Range Row) (a : RangeAct Row) : Decidable (Respects R a) := by
  unfold Respects
  infer_instance

def WellLed (R : Range Row) : LeaderAct Row → Prop
  | .on _ a => Disciplined R a ∧ Respects R a
  | .reseed _ => True

section Moves

variable {env : Env} {v v' : View Row} {a : Act Row}

theorem Move.running (hm : Move env v a v') (h : Coherent v.self) (hy : y ∈ v'.pa.running) :
    activeXid v'.self = some y ∨ y ∈ v.pa.running ∧ activeXid v.self ≠ some y := by
  have hold : y ∈ v.pa.running ∨ activeXid v'.self = some y := by
    cases hm with
    | alloc =>
      rcases mem_register.mp hy with rfl | hy
      · exact .inr rfl
      · exact .inl hy
    | prepared | finish | drop =>
      exact .inl (mem_running_finish.mp hy).1
    | _ => exact .inl hy
  rcases hold with hold | hnew
  · by_cases hact : activeXid v.self = some y
    · rcases Move.activeXid_cases hm h with ⟨hsame | hnone, -⟩ | ⟨hno, -⟩
      · exact .inl (hsame.trans hact)
      · rw [(Move.ends hm h hact hnone).1] at hy
        exact absurd rfl (mem_running_finish.mp hy).2
      · exact absurd (hno.symm.trans hact) (by simp)
    · exact .inr ⟨hold, hact⟩
  · exact .inl hnew

end Moves

/-- A transaction on record as committed and open nowhere. -/
structure Closed (R : Range Row) (x : Xid) : Prop where
  committed : R.tip.clogGet x = .committed
  notOpen : ∀ n s, activeXid (R.sess n s) ≠ some x

/-- Whatever a node has registered is open in one of its sessions, and a transaction whose commit
is reported is closed. -/
structure OpenInv (R : Range Row) : Prop where
  acks : AckInv R
  counter : ∀ n, 0 < (R.nodes n).pa.nextXid
  valid : ∀ n s x, activeXid (R.sess n s) = some x → x ≠ invalidXid
  running : ∀ n, ∀ x ∈ (R.nodes n).pa.running, ∃ s, activeXid (R.sess n s) = some x
  reported : ∀ n s x, (R.sess n s).pc = .releasing x true → Closed R x ∧ x ≠ invalidXid

section Steps

variable {R R' : Range Row} {n m : NodeId} {s s' : SessionId} {a : Act Row} {glob : GlobalView}
  {act : RangeAct Row} {x : Xid}

theorem activeXid_step (h : AckInv R) (hstep : R.step glob act = some R')
    (hx : activeXid (R'.sess m s') = some x) : activeXid (R.sess m s') = some x ∨
      R.tip.clogGet x = .inProgress ∧ x = (R.nodes m).pa.nextXid := by
  rcases h.xids.active_step hstep hx with ⟨hx, -⟩ | ⟨rfl, hl, hseed, -⟩
  · exact .inl hx
  · exact .inr ⟨h.fresh_undecided hl hseed, rfl⟩

theorem closed_step (h : AckInv R) (hx : Closed R x) (hstep : R.step glob act = some R') :
    Closed R' x where
  committed := committed_step hx.committed hstep
  notOpen m s' hact := by
    rcases activeXid_step h hstep hact with hold | ⟨hfresh, -⟩
    · exact hx.notOpen m s' hold
    · rw [hx.committed] at hfresh
      cases hfresh

theorem closed_of_finishing (h : AckInv R) (hstep : R.step glob act = some R')
    (hold : (R.sess m s').pc = .finishing x true) (hnew : (R'.sess m s').pc = .releasing x true) :
    Closed R' x := by
  have hcom : R.tip.clogGet x = .committed := h.acked m s' x (.inl hold)
  have hself : activeXid (R.sess m s') = some x := by
    unfold activeXid
    rw [hold]
  refine ⟨committed_step hcom hstep, fun n s hact => ?_⟩
  rcases activeXid_step h hstep hact with hopen | ⟨hfresh, -⟩
  · obtain ⟨rfl, rfl⟩ := h.uniq n s m s' x hopen hself
    unfold activeXid at hact
    rw [hnew] at hact
    cases hact
  · rw [hcom] at hfresh
    cases hfresh

theorem nextXid_pos_step (h : OpenInv R) (hstep : R.step glob act = some R') :
    0 < (R'.nodes m).pa.nextXid := by
  by_cases hboot : act = .crash m
  · subst hboot
    cases hstep
    rw [nodes_crash, if_pos rfl]
    exact lt_of_lt_of_le Nat.zero_lt_one (le_max_right _ _)
  · exact (h.counter m).trans_le (nextXid_le_step hstep hboot)

theorem running_step (h : OpenInv R) (hstep : R.step glob act = some R') (m : NodeId) :
    ∀ x ∈ (R'.nodes m).pa.running, ∃ s, activeXid (R'.sess m s) = some x := by
  have hold := h.running m
  have hturn := turned_step hstep m
  unfold sess at hold ⊢
  generalize R'.nodes m = node at hturn
  cases hturn with
  | same | settle | advance => exact hold
  | boot => exact nofun
  | tends node hpa hsess =>
    rw [hpa, hsess]
    exact hold
  | returned s b epoch after ok lag applied hact hpc =>
    intro x hx
    obtain ⟨s', hs'⟩ := hold x hx
    refine ⟨s', ?_⟩
    by_cases hss : s' = s
    · subst hss
      simp only [returnedNode, Function.update_self]
      rw [activeXid_returned (h.acks.xids.sess m s').coherent hpc]
      exact (by simp [activeXid, show ((R.nodes m).sessions s').pc = _ from hpc] :
        activeXid ((R.nodes m).sessions s') = some b.xid).symm.trans hs'
    · simp only [returnedNode, Function.update_of_ne hss]
      exact hs'
  | moved s a v lag hact ha hadm hmove =>
    intro x hx
    simp only [movedNode, Node.set]
    rcases Move.running hmove (h.acks.xids.sess m s).coherent hx with hself | ⟨hbefore, hne⟩
    · exact ⟨s, by rwa [Function.update_self]⟩
    · obtain ⟨s', hs'⟩ := hold x hbefore
      have hother : s' ≠ s := by
        rintro rfl
        exact hne hs'
      exact ⟨s', by rwa [Function.update_of_ne hother]⟩

theorem openInv_step (h : OpenInv R) (hok : Disciplined R act)
    (hstep : R.step glob act = some R') : OpenInv R' where
  acks := ackInv_step h.acks hok.1 hok.2 hstep
  counter n := nextXid_pos_step h hstep
  valid n s x hx := by
    rcases activeXid_step h.acks hstep hx with hold | ⟨-, rfl⟩
    · exact h.valid n s x hold
    · exact (h.counter n).ne'
  running := running_step h hstep
  reported n s x hx := by
    have hb := became_step hstep n s
    generalize hu : R'.sess n s = u at hb hx
    cases hb with
    | same => exact (h.reported n s x hx).imp_left (closed_step h.acks · hstep)
    | new => cases hx
    | returned b epoch after ok => exact absurd hx (returned_not_releasing _ b after ok)
    | moved a v lag hact ha hadm hmove =>
      have hfin : (R.sess n s).pc = .finishing x true := Move.of_releasing hmove hx
      refine ⟨closed_of_finishing h.acks hstep hfin (by rw [hu]; exact hx), ?_⟩
      exact h.valid n s x (by simp [activeXid, hfin])

end Steps

section Reseed

variable {R : Range Row}

theorem ackInv_reseed (h : AckInv R) (n : NodeId) : AckInv (R.reseed n) := by
  have hsess : ∀ m s, (R.reseed n).sess m s = R.sess m s := sess_setNode_same (by rfl)
  refine ⟨h.xids.setNode (le_max_left _ _) rfl, ?_, ?_, ?_, ?_, ?_⟩ <;> simp only [hsess]
  · exact h.outside
  · exact h.uniq
  · exact h.undecided
  · exact h.flight
  · exact h.acked

theorem openInv_reseed (h : OpenInv R) (n : NodeId) : OpenInv (R.reseed n) := by
  have hsess : ∀ m s, (R.reseed n).sess m s = R.sess m s := sess_setNode_same (by rfl)
  refine ⟨ackInv_reseed h.acks n, fun m => ?_, fun m s x hx => ?_, ?_, fun m s x hx => ?_⟩
  · unfold reseed
    rw [nodes_setNode]
    split_ifs
    · exact lt_of_lt_of_le (h.counter n) (le_max_left _ _)
    · exact h.counter m
  · exact h.valid m s x (hsess m s ▸ hx)
  · intro m x hx
    simp only [hsess]
    rw [show ((R.reseed n).nodes m).pa.running = _ from
      field_setNode (fun node => node.pa.running) (by rfl) m] at hx
    exact h.running m x hx
  · obtain ⟨hclosed, hvalid⟩ := h.reported m s x (hsess m s ▸ hx)
    exact ⟨⟨hclosed.committed, fun m' s' => hsess m' s' ▸ hclosed.notOpen m' s'⟩, hvalid⟩

end Reseed

theorem openInv_leaderStep {R R' : Range Row} {act : LeaderAct Row} (h : OpenInv R)
    (hok : WellLed R act) (hstep : leaderStep R act = some R') : OpenInv R' := by
  cases act with
  | on => exact openInv_step h hok.1 hstep
  | reseed n =>
    cases hstep
    exact openInv_reseed h n

theorem openInv_initial : OpenInv (initial : Range Row) where
  acks := ackInv_initial
  counter n := lt_of_lt_of_le Nat.zero_lt_one (le_max_right _ _)
  valid n s x hx := by cases hx
  running n x hx := by cases hx
  reported n s x hx := by cases hx

section Kept

variable {R R' : Range Row} {glob : GlobalView}

variable {x : Xid}

theorem version_ne_none_applyBatch {kv : Store Row} {k : RowKey}
    (h : kv.version k x ≠ none) (ops : List (WriteOp Row)) :
    (applyBatch kv ops).version k x ≠ none := by
  rcases version_applyBatch kv ops k x with hsame | ⟨t, ht, -⟩
  · rw [hsame]
    exact h
  · rw [ht]
    simp

theorem version_of_respects {p : Proposal Row} {k : RowKey} {u : Tuple Row}
    (h : ∀ op ∈ p.ops, overwrites R.tip op = false) (hu : R.tip.version k y = some u)
    (hcom : R.tip.clogGet u.xmax = .committed) : (applyBatch R.tip p.ops).version k y = some u := by
  rcases version_applyBatch R.tip p.ops k y with hsame | ⟨t, -, hmem⟩
  · exact hsame.trans hu
  · have hover := h _ hmem
    simp [overwrites, versionKey, VersionKey.rowKey, hu, hcom] at hover

/-- The log since the commit of `x` was reported, when the whole of it gave the store `acked`. -/
structure Since (acked : Store Row) (j : ℕ) (x : Xid) (R : Range Row) : Prop where
  inv : OpenInv R
  closed : Closed R x
  length : j ≤ R.log.length
  base : R.storeAt j = acked
  stamped : ∀ k y u, acked.version k y = some u → u.xmax = x → ∀ i, j ≤ i →
    (R.storeAt i).version k y = some u

theorem Since.same_log {acked : Store Row} (h : Since acked j x R) (hinv : OpenInv R')
    (hclosed : Closed R' x) (hlog : R'.log = R.log) : Since acked j x R' := by
  have hstore : ∀ i, R'.storeAt i = R.storeAt i := fun i => by
    unfold storeAt
    rw [hlog]
  refine ⟨hinv, hclosed, hlog ▸ h.length, (hstore j).trans h.base, fun k y u hu hx i hi => ?_⟩
  rw [hstore]
  exact h.stamped k y u hu hx i hi

theorem since_step {acked : Store Row} {act : LeaderAct Row} (h : Since acked j x R)
    (hok : WellLed R act) (hstep : leaderStep R act = some R') : Since acked j x R' := by
  have hinv := openInv_leaderStep h.inv hok hstep
  cases act with
  | reseed n =>
    cases hstep
    have hsess : ∀ m s, (R.reseed n).sess m s = R.sess m s := sess_setNode_same (by rfl)
    exact h.same_log hinv
      ⟨h.closed.committed, fun m s => hsess m s ▸ h.closed.notOpen m s⟩ rfl
  | on =>
    have hclosed := closed_step h.inv.acks h.closed hstep
    rcases log_step hstep with hlog | ⟨e, happ, hlog⟩
    · exact h.same_log hinv hclosed hlog
    · have hstore : ∀ i, R'.storeAt i = (R.append e).storeAt i := fun i => by
        unfold storeAt
        rw [hlog]
        rfl
      refine ⟨hinv, hclosed, ?_, ?_, fun k y u hu hx i hi => ?_⟩
      · rw [hlog, List.length_append]
        exact Nat.le_add_right_of_le h.length
      · rw [hstore, R.storeAt_append_le e h.length]
        exact h.base
      · rw [hstore]
        rcases le_or_gt i R.log.length with hle | hlt
        · rw [R.storeAt_append_le e hle]
          exact h.stamped k y u hu hx i hi
        · have htip : R.tip.version k y = some u := by
            rw [← storeAt_length]
            exact h.stamped k y u hu hx _ h.length
          rw [R.storeAt_append_gt e hlt, tip_append]
          exact version_of_respects (hok.2 e.proposal happ.appending) htip (hx ▸ h.closed.committed)

theorem applied_leaderStep {act : LeaderAct Row} (hstep : leaderStep R act = some R')
    (hlog : j ≤ R.log.length) {m : NodeId} (hj : j ≤ (R.nodes m).applied) :
    j ≤ (R'.nodes m).applied := by
  cases act with
  | on => exact applied_step hstep hlog hj
  | reseed =>
    cases hstep
    unfold reseed
    rw [field_setNode (fun node => node.applied) (by rfl)]
    exact hj

end Kept

/-- A scan of `kv` shows what `x` had written in `acked`. The versions that `x` created are shown,
or a newer one of the row is, unless a visible transaction superseded them; those that `x`
superseded are not. -/
structure Reflects (acked kv : Store Row) (glob : GlobalView) (gsnap snap : Snapshot)
    (own : Option Xid) (x : Xid) : Prop where
  created : ∀ t r, acked.version (t, r) x ≠ none → ∃ u, kv.version (t, r) x = some u ∧
    ((u.xmax ≠ invalidXid ∧
        committedVisible u.xmax snap own (globalStatus kv glob gsnap) = true) ∨
      ∃ y row, (r, y, row) ∈ scanLive kv glob gsnap snap own t ∧ x ≤ y)
  superseded : ∀ t r y u, acked.version (t, r) y = some u → u.xmax = x →
    ∀ row, (r, y, row) ∉ scanLive kv glob gsnap snap own t

section Read

variable {kv acked : Store Row} {glob : GlobalView} {gsnap snap : Snapshot} {own : Option Xid}
  {x : Xid}

theorem reflects_of_visible (hf : Formed kv) (hvalid : x ≠ invalidXid)
    (hvis : committedVisible x snap own (globalStatus kv glob gsnap) = true)
    (hkept : ∀ k, acked.version k x ≠ none → kv.version k x ≠ none)
    (hstamped : ∀ k y u, acked.version k y = some u → u.xmax = x → kv.version k y = some u) :
    Reflects acked kv glob gsnap snap own x where
  created t r hne := by
    obtain ⟨u, hu⟩ := Option.ne_none_iff_exists'.mp (hkept (t, r) hne)
    refine ⟨u, hu, ?_⟩
    by_cases hdead : u.xmax ≠ invalidXid ∧
        committedVisible u.xmax snap own (globalStatus kv glob gsnap) = true
    · exact .inl hdead
    · have hxmin : u.xmin = x := hf (t, r) x u hu
      have hlive : isLive (globalStatus kv glob gsnap) snap own u = true := by
        rw [isLive_iff, hxmin]
        refine ⟨hvis, ?_⟩
        by_contra hno
        rw [not_or, Bool.not_eq_false] at hno
        exact hdead hno
      obtain ⟨⟨y, row⟩, hv⟩ := Option.isSome_iff_exists.mp
        (findVisibleOne_isSome _ _ _ ((mem_rowVersions kv).mpr ⟨x, hu⟩) hlive)
      refine .inr ⟨y, row, mem_scanLive.mpr hv, ?_⟩
      exact ((findVisibleOne_iff hf).mp hv).2 x u.row (liveAt_eq_some.mpr ⟨u, hu, hlive, rfl⟩)
  superseded t r y u hu hx row hmem := by
    obtain ⟨hlive, -⟩ := (findVisibleOne_iff hf).mp (mem_scanLive.mp hmem)
    obtain ⟨u', hu', hl, -⟩ := liveAt_eq_some.mp hlive
    rw [hstamped (t, r) y u hu hx] at hu'
    cases hu'
    obtain ⟨-, hnone | hno⟩ := isLive_iff _ _ _ |>.mp hl
    · exact hvalid (hx.symm.trans hnone)
    · rw [hx, hvis] at hno
      cases hno

end Read

/-- The session reads with a fresh snapshot: it is outside a REPEATABLE READ block. -/
def readsFresh (u : Sess Row) : Prop := ∀ c, u.txn = .inTransaction c → c.repeatableRead = false

theorem readContext_fresh {env : Env} {v : View Row} {S G : Snapshot} {own : Option Xid}
    (h : readContext env v = some (S, own, G)) (hfresh : readsFresh v.self) :
    S = v.pa.snapshot := by
  unfold readContext at h
  split at h
  · cases h
    rfl
  · rename_i c htxn
    rw [hfresh c htxn] at h
    cases h
    rfl
  · cases h

/-- Once the commit of `x` is reported, on whatever node, a read with a fresh snapshot of a node
that has applied the log up to there and whose xid counter has been lifted reflects the writes of
`x`, whenever its scan runs. -/
theorem acked_write_read {acts later rest : List (LeaderAct Row)} {R R₁ R₂ : Range Row}
    (h : exec leaderStep initial acts = some R)
    (h₁ : exec leaderStep R later = some R₁) (h₂ : exec leaderStep R₁ rest = some R₂)
    (hok : Runs.Along leaderStep WellLed initial (acts ++ (later ++ rest)))
    {m n : NodeId} {s s' : SessionId} {x : Xid} (hack : (R.sess m s).pc = .releasing x true)
    (hbarrier : R.log.length ≤ (R₁.nodes n).applied)
    (hlifted : ProcArray.durableNext (R₁.storeAt (R₁.nodes n).applied) ≤ (R₁.nodes n).pa.nextXid)
    (hfresh : readsFresh (R₁.sess n s')) {glob : GlobalView} {S G : Snapshot} {own : Option Xid}
    (hread : readContext (R₁.env n glob)
      ((R₁.nodes n).view s' (R₁.storeAt (R₁.nodes n).applied)) = some (S, own, G))
    (glob' : GlobalView) : Reflects R.tip (R₂.storeAt (R₂.nodes n).applied) glob' G S own x := by
  obtain ⟨hacts, hrest⟩ := along_append hok h
  obtain ⟨hlater, hrest⟩ := along_append hrest h₁
  have hopen : OpenInv R :=
    exec_invariant (fun _ _ _ => openInv_leaderStep) openInv_initial hacts h
  obtain ⟨hclosed, hvalid⟩ := hopen.reported m s x hack
  have hsince : Since R.tip R.log.length x R :=
    ⟨hopen, hclosed, le_rfl, R.storeAt_length, fun k y u hu _ i hi => by
      rwa [storeAt, List.take_of_length_le hi]⟩
  have hsince₁ : Since R.tip R.log.length x R₁ :=
    exec_invariant (fun _ _ _ => since_step) hsince hlater h₁
  obtain ⟨hsince₂, happlied⟩ : Since R.tip R.log.length x R₂ ∧
      R.log.length ≤ (R₂.nodes n).applied := by
    refine exec_invariant (I := fun R' => Since R.tip R.log.length x R' ∧
      R.log.length ≤ (R'.nodes n).applied) ?_ ⟨hsince₁, hbarrier⟩ hrest h₂
    exact fun _ _ _ hI ha hstep =>
      ⟨since_step hI.1 ha hstep, applied_leaderStep hstep hI.1.length hI.2⟩
  -- the snapshot counts `x` as settled: the counter is past it and no session has it open
  have hsee : S.canSee x := by
    rw [readContext_fresh hread hfresh]
    refine ⟨?_, fun hrun => ?_⟩
    · obtain ⟨ops, hops⟩ := R₁.storeAt_le hbarrier
      rw [hsince₁.base] at hops
      have hnamed : x < R.next := by
        refine hopen.acks.xids.named x (.inl fun hnone => ?_)
        have hcom := hclosed.committed
        rw [Store.clogGet, hnone] at hcom
        cases hcom
      calc x < durableNext R.tip := hnamed
        _ ≤ durableNext (R₁.storeAt (R₁.nodes n).applied) := by
          rw [hops]
          exact durableNext_le_applyBatch ops
        _ ≤ (R₁.nodes n).pa.nextXid := hlifted
    · obtain ⟨s₁, hs₁⟩ := hsince₁.inv.running n x hrun
      exact hsince₁.closed.notOpen n s₁ hs₁
  obtain ⟨ops, hops⟩ := R₂.storeAt_le happlied
  rw [hsince₂.base] at hops
  have hcom : (R₂.storeAt (R₂.nodes n).applied).clogGet x = .committed := by
    rw [hops, clogGet_applyBatch_terminal (by rw [hclosed.committed]; rfl)]
    exact hclosed.committed
  refine reflects_of_visible (formed_storeAt hsince₂.inv.acks.xids _) hvalid ?_ ?_ ?_
  · rw [committedVisible_iff]
    exact .inr ⟨hsee, by simp only [globalStatus, hcom]⟩
  · intro k hne
    rw [hops]
    exact version_ne_none_applyBatch hne ops
  · exact fun k y u hu hx => hsince₂.stamped k y u hu hx _ happlied

section Runs

def onLeader (acts : List (RangeAct ℕ)) : List (LeaderAct ℕ) := acts.map (.on .initial)

def reportedInsert : List (LeaderAct ℕ) :=
  onLeader (openGate 0 false ++
    calls 0 0 [.start insertOne, .takeSnapshot, .scan, .propose, .apply true, .finish])

/-- Node 1 takes over. Its reseed runs before it has applied the INSERT, its read barrier after. -/
def earlyReseed : List (LeaderAct ℕ) :=
  onLeader [.crash 0, .elect 1] ++ [.reseed 1] ++ onLeader [.catchUp 1]

def lateReseed : List (LeaderAct ℕ) :=
  onLeader [.crash 0, .elect 1, .catchUp 1] ++ [.reseed 1]

def selectOn (R : Range ℕ) (n : NodeId) (s : SessionId) : Option (List (RowId × ℕ)) :=
  selectRows (R.env n .initial) ((R.nodes n).view s (R.storeAt (R.nodes n).applied)) 1

def wellLedCheck (R : Range ℕ) : LeaderAct ℕ → Bool
  | .on _ a => disciplinedCheck R a && decide (Respects R a)
  | .reseed _ => true

theorem wellLed_of_check {R : Range ℕ} {act : LeaderAct ℕ} (h : wellLedCheck R act = true) :
    WellLed R act := by
  cases act with
  | on =>
    simp only [wellLedCheck, Bool.and_eq_true, decide_eq_true_eq] at h
    exact ⟨disciplined_of_check h.1, h.2⟩
  | reseed => trivial

end Runs

/-- The INSERT is reported, node 1 leads, has reseeded and has applied the whole log; its SELECT
returns no row. -/
theorem acked_write_missed :
    ∃ R R₁ : Range ℕ, exec leaderStep initial reportedInsert = some R ∧
      (R.sess 0 0).pc = .releasing 1 true ∧ R.tip.version (1, 1) 1 = some ⟨1, invalidXid, 1⟩ ∧
      exec leaderStep R earlyReseed = some R₁ ∧ R₁.leader = some 1 ∧
      (R₁.nodes 1).applied = R₁.log.length ∧ selectOn R₁ 1 0 = some [] := by
  obtain ⟨R, hR, hack, hver, R₁, hR₁, hread⟩ :
      ∃ R ∈ exec leaderStep initial reportedInsert, reports 1 (R.sess 0 0) = true ∧
        R.tip.version (1, 1) 1 = some ⟨1, invalidXid, 1⟩ ∧
        ∃ R₁ ∈ exec leaderStep R earlyReseed, R₁.leader = some 1 ∧
          (R₁.nodes 1).applied = R₁.log.length ∧ selectOn R₁ 1 0 = some [] := by decide
  exact ⟨R, R₁, hR, releasing_of_reports hack, hver, hR₁, hread⟩

/-- After a reseed from the whole log the SELECT shows the row. -/
theorem acked_write_read_reseeded :
    ∃ R R₁ : Range ℕ, exec leaderStep initial reportedInsert = some R ∧
      exec leaderStep R lateReseed = some R₁ ∧ selectOn R₁ 1 0 = some [(1, 1)] ∧
      Reflects R.tip (R₁.storeAt (R₁.nodes 1).applied) .initial (durableGlobalSnapshot .initial)
        (R₁.nodes 1).pa.snapshot none 1 := by
  obtain ⟨R, hR, hack, R₁, hR₁, hbarrier, hlifted, hidle, hrows⟩ :
      ∃ R ∈ exec leaderStep initial reportedInsert, reports 1 (R.sess 0 0) = true ∧
        ∃ R₁ ∈ exec leaderStep R lateReseed, R.log.length ≤ (R₁.nodes 1).applied ∧
          durableNext (R₁.storeAt (R₁.nodes 1).applied) ≤ (R₁.nodes 1).pa.nextXid ∧
          (R₁.sess 1 0).txn = .idle ∧ selectOn R₁ 1 0 = some [(1, 1)] := by decide
  have hok : Along leaderStep WellLed (initial : Range ℕ)
      (reportedInsert ++ (lateReseed ++ [])) :=
    along_of_check wellLedCheck (fun _ _ => wellLed_of_check) (by decide)
  have hfresh : readsFresh (R₁.sess 1 0) := by
    intro c hc
    rw [hidle] at hc
    cases hc
  have hread : readContext (R₁.env 1 .initial)
      ((R₁.nodes 1).view 0 (R₁.storeAt (R₁.nodes 1).applied)) =
      some ((R₁.nodes 1).pa.snapshot, none, durableGlobalSnapshot .initial) := by
    have hself : ((R₁.nodes 1).view 0 (R₁.storeAt (R₁.nodes 1).applied)).self.txn = .idle := hidle
    rw [readContext, hself]
    rfl
  exact ⟨R, R₁, hR, hR₁, hrows, acked_write_read hR hR₁ rfl hok (releasing_of_reports hack) hbarrier
    hlifted hfresh hread .initial⟩

end Crabgresql.Cluster
