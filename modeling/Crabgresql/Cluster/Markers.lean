import Crabgresql.Cluster.Acks

/-!
# What is recorded about a participant

A record about an xid sits in the log, in flight or in a proposal. Once a
participant has a prepare marker, every record about it is that marker, as long
as its session takes part in one global transaction only, does not end on its
own, and finds no other undecided global transaction on the rows it writes.
-/

namespace Crabgresql.Cluster

open Mvcc Kv Procarray Lockmgr Exec Session Engine Recovery Range

variable {Row : Type}
variable {b : Batch Row} {g x : Xid} {st : XidStatus} {u : Sess Row} {e : LogEntry Row}
  {epoch : ℕ} {after : After}

/-- The undecided global transaction under which a version was created. -/
def claim (kv : Store Row) (glob : GlobalView) (t : Tuple Row) : Option Xid :=
  match kv.clogGet t.xmin with
  | .prepared g => if (glob.clog g).isTerminal then none else some g
  | _ => none

/-- No version that another transaction wrote to one of the rows is claimed by another global
transaction than `g`. -/
def Unclaimed (kv : Store Row) (glob : GlobalView) (li g : Xid) (rows : List RowKey) : Prop :=
  ∀ k ∈ rows, ∀ t ∈ kv.rowVersions k, t.xmin ≠ li → ∀ g' ∈ claim kv glob t, g' = g

instance (kv : Store Row) (glob : GlobalView) (li g : Xid) (rows : List RowKey) :
    Decidable (Unclaimed kv glob li g rows) := by
  unfold Unclaimed
  infer_instance

def proposedRows (u : Sess Row) : List RowKey :=
  match u.pc with
  | .looping f =>
    u.txn.writtenRows ++ View.touched (f.seqOps ++ f.changes.flatMap (Change.rowOps f.xid))
  | _ => []

/-- A session takes part in one global transaction at a time, leaves it only by a release, and
writes no row that another undecided one claims. -/
def SoleCall (kv : Store Row) (glob : GlobalView) (u : Sess Row) : Act Row → Prop
  | .join g => (u.globalXid = none ∨ u.globalXid = some g) ∧
      ∀ x ∈ u.txn.localXid, Unclaimed kv glob x g u.txn.writtenRows
  | .propose => ∀ g ∈ u.globalXid, ∀ x ∈ u.txn.localXid, Unclaimed kv glob x g (proposedRows u)
  | .commit | .rollback => u.globalXid = none
  | _ => True

instance (kv : Store Row) (glob : GlobalView) (u : Sess Row) (a : Act Row) :
    Decidable (SoleCall kv glob u a) := by
  unfold SoleCall
  split <;> infer_instance

def SoleGlobal (glob : GlobalView) (R : Range Row) : RangeAct Row → Prop
  | .call n s a lag =>
    SoleCall (R.storeAt (R.nodes n).applied) (lag.view glob) (R.sess n s) a
  | _ => True

instance (glob : GlobalView) (R : Range Row) (act : RangeAct Row) :
    Decidable (SoleGlobal glob R act) := by
  unfold SoleGlobal
  split <;> infer_instance

section Session

variable {kv : Store Row} {glob : GlobalView} {env : Env} {v v' : View Row} {a : Act Row}

theorem siblingGlobals_nil {li : Xid} {rows : List RowKey} (h : Unclaimed kv glob li g rows) :
    siblingGlobals kv glob li g rows = [] := by
  unfold siblingGlobals
  rw [List.flatMap_eq_nil_iff]
  intro k hk
  rw [List.filterMap_eq_nil_iff]
  intro t ht
  have hclaim := h k hk t ht
  unfold claim at hclaim
  split_ifs with hli
  · rfl
  · split
    · rename_i g' hg'
      rw [hg'] at hclaim
      split_ifs with hboth
      · simp only [hboth.2, Bool.false_eq_true, if_false] at hclaim
        exact absurd (hclaim hli g' rfl) hboth.1
      · rfl
    · rfl

theorem effectiveGlobalXid_eq {txn : TxnState}
    (h : ∀ x ∈ txn.localXid, Unclaimed kv glob x g txn.writtenRows) :
    effectiveGlobalXid kv glob txn g = g := by
  unfold effectiveGlobalXid
  split
  · rfl
  · rename_i x hx
    rw [siblingGlobals_nil (h x hx)]
    rfl

theorem SoleCall.intentAfter_plain (h : SoleCall kv glob u a) (hplain : a.enlists = false) :
    intentAfter u.globalXid a = u.globalXid := by
  cases a with
  | join | drop => cases hplain
  | commit | rollback => exact (show u.globalXid = none from h).symm
  | _ => rfl

theorem SoleCall.marker {f : Frame Row} {c : TxnCtx} {rows : List RowKey}
    (h : SoleCall kv glob u .propose) (hpc : u.pc = .looping f) (htxn : u.txn = .inTransaction c)
    (hrows : rows = c.writtenRows ++
      View.touched (f.seqOps ++ f.changes.flatMap (Change.rowOps f.xid))) :
    u.globalXid.map (effectiveGlobalXid kv glob (.inTransaction { c with writtenRows := rows })) =
      u.globalXid := by
  cases hg : u.globalXid with
  | none => rfl
  | some g =>
    rw [Option.map_some, effectiveGlobalXid_eq]
    intro x hx
    have hown : x ∈ u.txn.localXid := by
      rw [htxn]
      exact hx
    have hun := h g hg x hown
    simp only [proposedRows, hpc, htxn, TxnState.writtenRows] at hun
    simp only [TxnState.writtenRows, hrows]
    exact hun

theorem globalXid_returned (u : Sess Row) (b : Batch Row) (after : After) (ok : Bool) :
    (u.returned b after ok).globalXid = u.globalXid := by
  cases after <;> cases ok <;> rfl

theorem localXid_returned (u : Sess Row) (b : Batch Row) (after : After) (ok : Bool) :
    (u.returned b after ok).txn.localXid = u.txn.localXid := by
  cases after <;> cases ok <;> first | rfl | exact localXid_fail _

theorem Move.intentAfter (hm : Move env v a v') (hsole : SoleCall v.kv env.glob v.self a) :
    intentAfter v.self.globalXid a = v'.self.globalXid := by
  cases hm with
  | still _ txn err hpc hx hw hplain | walk _ f todo hpc hplain
  | fail _ f e lm seq hpc hlm hplain => exact hsole.intentAfter_plain hplain
  | stage f c rows marker hpc hw hauto htxn hrows hmarker =>
    exact (hmarker.trans (hsole.marker hpc htxn hrows)).symm
  | commit => exact (show v.self.globalXid = none from hsole).symm
  | abort _ ha =>
    rcases ha with rfl | rfl <;> exact (show v.self.globalXid = none from hsole).symm
  | apply => exact (globalXid_returned _ _ _ _).symm
  | join g x eff hpc hx heff =>
    rw [heff, effectiveGlobalXid_eq hsole.2]
    rfl
  | _ => rfl

/-- A transaction that goes on stays in its global transaction, and one that starts to end on its
own is in none. -/
theorem Move.stays (hm : Move env v a v') (hsole : SoleCall v.kv env.glob v.self a)
    (hx' : activeXid v'.self = some x) (hg : v.self.globalXid = some g)
    (hloc : v.self.txn.localXid = some x) :
    v'.self.globalXid = some g ∧ v'.self.txn.localXid = some x := by
  have hglob := Move.intentAfter hm hsole
  rw [hg] at hglob
  refine ⟨?_, ?_⟩
  · rw [← hglob]
    cases a with
    | join =>
      have hjoin := hsole.1
      rw [hg] at hjoin
      rcases hjoin with h | h
      · cases h
      · exact h.symm
    | drop =>
      cases hm with
      | leave | drop => cases hx'
      | still _ txn err hpc hx hw hplain | walk _ f todo hpc hplain
      | fail _ f e lm seq hpc hlm hplain => cases hplain
      | abort _ ha => rcases ha with h | h <;> cases h
    | commit | rollback => exact absurd (hg.symm.trans hsole) (by simp)
    | _ => rfl
  · cases hm with
    | still _ txn err hpc hx => exact hx.trans hloc
    | alloc w auto txn hpc hnone =>
      rw [hloc] at hnone
      cases hnone
    | read w y auto f txn hpc hy hw hauto htodo hchanges hops htxn =>
      rcases htxn with ⟨-, rfl⟩ | ⟨-, c, S, hc', rfl⟩
      · exact hloc
      · rw [hc'] at hloc
        exact hloc
    | fail => exact (localXid_fail _).trans hloc
    | stage f c rows marker hpc hw hauto htxn =>
      rw [htxn] at hloc
      exact hloc
    | commit => exact absurd (hg.symm.trans hsole) (by simp)
    | abort _ ha =>
      rcases ha with rfl | rfl <;> exact absurd (hg.symm.trans hsole) (by simp)
    | apply => exact (localXid_returned _ _ _ _).trans hloc
    | leave | drop => cases hx'
    | _ => exact hloc

def Records (u : Sess Row) (b : Batch Row) : After → Prop
  | .keep | .enlist => b.outcome = u.globalXid.map .prepared
  | .close _ => ∀ st, b.outcome = some st → st.isTerminal = true

theorem Move.records (hm : Move env v a v') (hsole : SoleCall v.kv env.glob v.self a)
    (hold : ∀ b epoch after, v.self.pc = .committing b epoch after → Records v.self b after)
    (hpc' : v'.self.pc = .committing b epoch after) : Records v'.self b after := by
  cases hm with
  | wait => exact hold b epoch after hpc'
  | fail =>
    simp only [failPc] at hpc'
    split_ifs at hpc'
    cases hpc'
    intro st hst
    cases hst
    rfl
  | done =>
    simp only at hpc'
    split_ifs at hpc'
  | submit | commit | abort =>
    cases hpc'
    intro st hst
    cases hst
    rfl
  | stage | join =>
    cases hpc'
    rfl
  | apply => exact absurd hpc' (returned_not_committing _ _ _ _)
  | _ => cases hpc'

end Session

/-- Status `st` is recorded, in flight or proposed for `x`. -/
structure Says (R : Range Row) (x : Xid) (st : XidStatus) : Prop where
  ne : st ≠ .inProgress
  held : R.tip.clogGet x = st ∨
    (∃ p ∈ R.inflight, ∃ b, p.2.proposal = .batch b ∧ b.xid = x ∧ b.outcome = some st) ∨
    ∃ n s b epoch after, (R.sess n s).pc = .committing b epoch after ∧ b.xid = x ∧
      b.outcome = some st

structure MarkInv (R : Range Row) : Prop where
  acks : AckInv R
  intent : ∀ n s, (R.nodes n).intent s = (R.sess n s).globalXid
  small : ∀ n s g, (R.sess n s).globalXid = some g → g < u64Max
  records : ∀ n s b epoch after, (R.sess n s).pc = .committing b epoch after →
    Records (R.sess n s) b after
  flight : ∀ p ∈ R.inflight, ∀ b g, p.2.proposal = .batch b → p.2.staged = some g →
    b.outcome = some (.prepared g) ∧ g < u64Max
  real : ∀ p ∈ R.inflight, ∀ b, p.2.proposal = .batch b → b.outcome ≠ some .inProgress
  agree : ∀ x g st, Says R x (.prepared g) → Says R x st → st = .prepared g
  mine : ∀ x g n s, Says R x (.prepared g) → activeXid (R.sess n s) = some x →
    (R.sess n s).globalXid = some g ∧ (R.sess n s).txn.localXid = some x
  staged : ∀ e ∈ R.log, ∀ b g, e.proposal = .batch b → e.staged = some g →
    R.tip.clogGet b.xid = .prepared g ∧ g < u64Max

section Steps

variable {R R' : Range Row} {n : NodeId} {s : SessionId} {a : Act Row} {glob : GlobalView}

theorem Pending.stated (he : Pending R e) (hb : e.proposal = .batch b) (hst : b.outcome = some st)
    (hne : st ≠ .inProgress) : Says R b.xid st := by
  rcases he with ⟨epoch, hp⟩ | ⟨n, s, b', epoch, after, hpc, rfl⟩
  · exact ⟨hne, .inr (.inl ⟨_, hp, b, hb, rfl, hst⟩)⟩
  · cases hb
    exact ⟨hne, .inr (.inr ⟨n, s, b, epoch, after, hpc, rfl, hst⟩)⟩

theorem MarkInv.pending_staged (h : MarkInv R) (he : Pending R e) (hb : e.proposal = .batch b)
    (hg : e.staged = some g) : b.outcome = some (.prepared g) ∧ g < u64Max := by
  rcases he with ⟨epoch, hp⟩ | ⟨n, s, b', epoch, after, hpc, rfl⟩
  · exact h.flight _ hp b g hb hg
  · cases hb
    have hrec := h.records n s b epoch after hpc
    simp only [entryOf, h.intent] at hg
    cases after with
    | close => cases hg
    | keep | enlist =>
      exact ⟨hrec.trans (congrArg (Option.map XidStatus.prepared) hg), h.small n s g hg⟩

theorem MarkInv.pending_real (h : MarkInv R) (he : Pending R e) (hb : e.proposal = .batch b) :
    b.outcome ≠ some .inProgress := by
  rcases he with ⟨epoch, hp⟩ | ⟨n, s, b', epoch, after, hpc, rfl⟩
  · exact h.real _ hp b hb
  · cases hb
    have hfits := ((h.acks.xids.sess n s).batch b epoch after hpc).2
    cases after with
    | keep => rcases hfits with hnone | ⟨g, hg⟩ <;> simp [*]
    | enlist =>
      obtain ⟨g, hg⟩ := hfits
      simp [hg]
    | close ack =>
      rw [show b.outcome = _ from hfits]
      cases ack <;> simp

variable {act : RangeAct Row}

theorem Pending.of_flight (hstep : R.step glob act = some R') {p : ℕ × LogEntry Row}
    (hp : p ∈ R'.inflight) (hb : p.2.proposal = .batch b) : Pending R p.2 := by
  rcases inflight_step hstep hp with hp | ⟨n, s, b', after, lag, -, hpc, -, he⟩ |
    ⟨n, term, lo, -, -, -, rfl⟩
  · exact .inl ⟨p.1, hp⟩
  · exact .inr ⟨n, s, b', p.1, after, hpc, he⟩
  · cases hb

theorem MarkInv.says_tip (h : MarkInv R) (hstep : R.step glob act = some R') (x : Xid) :
    R'.tip.clogGet x = R.tip.clogGet x ∨ Says R x (R'.tip.clogGet x) := by
  rcases log_step hstep with hlog | ⟨e, ha, hlog⟩
  · exact .inl (by simp [tip, hlog])
  rw [show R'.tip = applyBatch R.tip e.proposal.ops by simp [tip, hlog]]
  cases hb : e.proposal with
  | scanLo lo => exact .inl (clogGet_applyOp R.tip (.counter .clogScanLo lo) x)
  | batch b =>
    have he := Appended.pending ha hb
    rw [show (Proposal.batch b).ops = b.ops from rfl,
      clogGet_applyBatch_ops (h.acks.xids.pending_seqOnly he hb)]
    cases hst : b.outcome with
    | none => exact .inl rfl
    | some =>
      simp only
      split_ifs with hbx
      · subst hbx
        unfold keepTerminal
        split_ifs
        · exact .inl rfl
        · exact .inr (he.stated hb hst fun hzero => h.pending_real he hb (hzero ▸ hst))
      · exact .inl rfl

/-- What is said after a step was said before, unless a session proposes it now. -/
theorem MarkInv.says_step (h : MarkInv R) (hstep : R.step glob act = some R') (hs : Says R' x st) :
    Says R x st ∨ ∃ n s a v lag b epoch after, act = .call n s a lag ∧ (∀ ok, a ≠ .apply ok) ∧
      Move (R.env n (lag.view glob)) ((R.nodes n).view s (R.storeAt (R.nodes n).applied)) a v ∧
      R'.sess n s = v.self ∧ v.self.pc = .committing b epoch after ∧ b.xid = x ∧
      b.outcome = some st := by
  obtain ⟨hne, htip | ⟨p, hp, b, hb, rfl, hst⟩ | ⟨m, s', b, epoch, after, hpc, rfl, hst⟩⟩ := hs
  · rcases h.says_tip hstep x with hsame | hsaid
    · exact .inl ⟨hne, .inl (hsame.symm.trans htip)⟩
    · exact .inl (htip ▸ hsaid)
  · exact .inl ((Pending.of_flight hstep hp hb).stated hb hst hne)
  · have hbecame := became_step hstep m s'
    generalize hu : R'.sess m s' = u at hbecame hpc
    cases hbecame with
    | same => exact .inl ⟨hne, .inr (.inr ⟨m, s', b, epoch, after, hpc, rfl, hst⟩)⟩
    | new => cases hpc
    | returned => exact absurd hpc (returned_not_committing _ _ _ _)
    | moved a v lag hact ha hadm hmove =>
      exact .inr ⟨m, s', a, v, lag, b, epoch, after, hact, ha, hmove, hu, hpc, rfl, hst⟩

/-- A recorded marker stays, because all that is said about its xid is the marker. -/
theorem MarkInv.marker_stays (h : MarkInv R) (hstep : R.step glob act = some R')
    (hclog : R.tip.clogGet x = .prepared g) : R'.tip.clogGet x = .prepared g := by
  rcases h.says_tip hstep x with hsame | hs
  · exact hsame.trans hclog
  · exact h.agree x g _ ⟨by simp, .inl hclog⟩ hs

theorem MarkInv.staged_step (h : MarkInv R) (hstep : R.step glob act = some R') (he : e ∈ R'.log)
    (hb : e.proposal = .batch b) (hg : e.staged = some g) :
    R'.tip.clogGet b.xid = .prepared g ∧ g < u64Max := by
  have hold : e ∈ R.log → R'.tip.clogGet b.xid = .prepared g ∧ g < u64Max := fun he =>
    (h.staged e he b g hb hg).imp_left (h.marker_stays hstep)
  rcases log_step hstep with hlog | ⟨e', ha, hlog⟩
  · exact hold (hlog ▸ he)
  have he' := he
  rw [hlog] at he'
  rcases List.mem_append.mp he' with hmem | hlast
  · exact hold hmem
  obtain rfl := List.mem_singleton.mp hlast
  have hpend := Appended.pending ha hb
  obtain ⟨hst, hlt⟩ := h.pending_staged hpend hb hg
  refine ⟨?_, hlt⟩
  rw [show R'.tip = applyBatch R.tip b.ops by simp [tip, hlog, hb, Proposal.ops],
    clogGet_applyBatch_ops (h.acks.xids.pending_seqOnly hpend hb), hst]
  simp only [if_true, keepTerminal]
  split_ifs with hterm
  · -- a terminal record beside the marker is excluded
    have hne : R.tip.clogGet b.xid ≠ .inProgress := by
      intro hzero
      rw [hzero] at hterm
      cases hterm
    exact h.agree _ g _ (hpend.stated hb hst (by simp)) ⟨hne, .inl rfl⟩
  · rfl

theorem AckInv.not_says_fresh (h : AckInv R) (hlead : R.leader = some n) (hseed : R.seeded = true) :
    ¬ Says R (R.nodes n).pa.nextXid st := by
  rintro ⟨hne, htip | ⟨p, hp, b, hb, hx, -⟩ | ⟨m, s', b, epoch, after, hpc, hx, -⟩⟩
  · rw [h.fresh_undecided hlead hseed] at htip
    exact hne htip.symm
  · exact absurd (h.flight_lt hlead hseed hp hb) (hx ▸ lt_irrefl _)
  · have hactive : activeXid (R.sess m s') = some b.xid := by
      unfold activeXid
      rw [hpc]
    exact absurd (h.open_lt hlead hseed hactive) (hx ▸ lt_irrefl _)

theorem MarkInv.says_open (h : MarkInv R) (hsaid : Says R x st)
    (hactive : activeXid (R.sess n s) = some x) (hfin : finishing (R.sess n s) = false)
    (hpc : ∀ b epoch after, (R.sess n s).pc ≠ .committing b epoch after) :
    ∃ g, st = .prepared g := by
  have hterm : st.isTerminal = false := by
    obtain ⟨-, htip | ⟨p, hp, b, hb, rfl, hst⟩ | ⟨m, s', b, epoch, after, hpc', rfl, -⟩⟩ := hsaid
    · rw [← htip]
      exact h.acks.undecided n s x hactive hfin
    · by_contra hterm
      rw [Bool.not_eq_false] at hterm
      rw [h.acks.flight p hp b st hb hst hterm n s hactive] at hfin
      cases hfin
    · have hactive' : activeXid (R.sess m s') = some b.xid := by
        unfold activeXid
        rw [hpc']
      obtain ⟨rfl, rfl⟩ := h.acks.uniq m s' n s b.xid hactive' hactive
      exact absurd hpc' (hpc b epoch after)
  cases st with
  | prepared g => exact ⟨g, rfl⟩
  | inProgress => exact absurd rfl hsaid.ne
  | committed | aborted => cases hterm

theorem coherent_staging (h : Coherent u) (hpc : u.pc = .committing b epoch after)
    (hrec : Records u b after) (hst : b.outcome = some (.prepared g)) :
    u.globalXid = some g ∧ u.txn.localXid = some b.xid := by
  have hglob : b.outcome = u.globalXid.map .prepared → u.globalXid = some g := by
    intro heq
    cases hg : u.globalXid with
    | none =>
      rw [hst, hg] at heq
      cases heq
    | some =>
      rw [hst, hg] at heq
      cases heq
      rfl
  unfold Coherent at h
  rw [hpc] at h
  cases after with
  | close => cases hrec _ hst
  | keep | enlist => exact ⟨hglob hrec, h⟩

section Moved

variable {v : View Row}

theorem MarkInv.moved_agree (h : MarkInv R) (ha : ∀ ok, a ≠ .apply ok)
    (hsole : SoleCall (R.storeAt (R.nodes n).applied) glob (R.sess n s) a)
    (hm : Move (R.env n glob) ((R.nodes n).view s (R.storeAt (R.nodes n).applied)) a v)
    (hcoh : Coherent v.self) (hpc : v.self.pc = .committing b epoch after)
    (hst : b.outcome = some st) : (st = .prepared g → ∀ st', Says R b.xid st' → st' = .prepared g) ∧
      (Says R b.xid (.prepared g) → st = .prepared g) := by
  have hrec : Records v.self b after := Move.records hm hsole (h.records n s) hpc
  have hold : Coherent (R.sess n s) := (h.acks.xids.sess n s).coherent
  have hactive : activeXid (R.sess n s) = some b.xid := (Move.committing hm hold hpc).2
  have hnew : activeXid v.self = some b.xid := by
    unfold activeXid
    rw [hpc]
  -- what a marker from before says about the session now
  have hmark : ∀ {g'}, Says R b.xid (.prepared g') →
      v.self.globalXid = some g' ∧ v.self.txn.localXid = some b.xid := by
    intro g' hsaid
    obtain ⟨hg, hloc⟩ := h.mine _ g' n s hsaid hactive
    exact Move.stays hm hsole hnew hg hloc
  constructor
  · rintro rfl st' hsaid
    have hfin : finishing (R.sess n s) = false := by
      by_contra hfin
      rw [Bool.not_eq_false] at hfin
      unfold finishing at hfin
      split at hfin
      · rename_i y ack hpc'
        rw [Move.of_finishing hm hpc'] at hpc
        cases hpc
      · cases hfin
    obtain ⟨g', rfl⟩ := h.says_open hsaid hactive hfin fun b' epoch' after' => Move.not_committing hm ha
    have hg := (coherent_staging hcoh hpc hrec hst).1
    rw [(hmark hsaid).1] at hg
    cases hg
    rfl
  · intro hsaid
    obtain ⟨hg, hloc⟩ := hmark hsaid
    unfold Coherent at hcoh
    rw [hpc] at hcoh
    cases after with
    | close =>
      rw [show v.self.txn.localXid = none from hcoh] at hloc
      cases hloc
    | keep | enlist =>
      rw [show b.outcome = v.self.globalXid.map .prepared from hrec, hg] at hst
      exact (Option.some.inj hst).symm

end Moved

end Steps

end Crabgresql.Cluster
