import Crabgresql.Cluster.Markers

/-!
# Atomicity across ranges

Everything staged into a global transaction carries its marker, on every range
and for ever, so that the one decision of range 0 shows all of it or none. The
fence of `effective_global_xid` breaks this: a statement that finds another
undecided global transaction on its rows is stamped with that one.
-/

namespace Crabgresql.Cluster

open Mvcc Kv Procarray Lockmgr Exec Session Engine Recovery Range Runs MultiRangeCluster

variable {Row : Type}

section Steps

variable {R R' : Range Row} {act : RangeAct Row} {glob : GlobalView}

theorem MarkInv.intent_step (h : MarkInv R) (hsole : SoleGlobal glob R act)
    (hstep : R.step glob act = some R') (m : NodeId) (s' : SessionId) :
    (R'.nodes m).intent s' = (R'.sess m s').globalXid := by
  have hold := h.intent m s'
  have hturn := turned_step hstep m
  unfold sess at hold ⊢
  generalize R'.nodes m = node at hturn
  cases hturn with
  | same | settle | advance => exact hold
  | boot => rfl
  | tends node hpa hsess hintent =>
    rw [hintent, hsess]
    exact hold
  | returned s b epoch after ok lag applied hact hpc =>
    by_cases hs : s' = s
    · subst hs
      simp only [returnedNode, Function.update_self]
      exact hold.trans (globalXid_returned _ _ _ _).symm
    · simp only [returnedNode, Function.update_of_ne hs]
      exact hold
  | moved s a v lag hact ha hadm hmove =>
    subst hact
    by_cases hs : s' = s
    · subst hs
      simp only [movedNode, Node.set, Function.update_self]
      rw [hold]
      exact Move.intentAfter hmove hsole
    · simp only [movedNode, Node.set, Function.update_of_ne hs]
      exact hold

theorem MarkInv.small_step (h : MarkInv R) (hsole : SoleGlobal glob R act)
    (hstep : R.step glob act = some R') {m : NodeId} {s' : SessionId} {g : Xid}
    (hg : (R'.sess m s').globalXid = some g) : g < u64Max := by
  have hb := became_step hstep m s'
  generalize R'.sess m s' = u at hb hg
  cases hb with
  | same => exact h.small m s' g hg
  | new => cases hg
  | returned => exact h.small m s' g ((globalXid_returned _ _ _ _).symm.trans hg)
  | moved a v lag hact ha hadm hmove =>
    subst hact
    rw [← Move.intentAfter hmove hsole] at hg
    cases a with
    | join =>
      simp only [admits, Bool.and_eq_true, decide_eq_true_eq] at hadm
      cases hg
      exact hadm.2
    | drop | commit | rollback => cases hg
    | _ => exact h.small m s' g hg

theorem markInv_step (h : MarkInv R) (hdisc : Disciplined R act)
    (hsole : SoleGlobal glob R act) (hstep : R.step glob act = some R') : MarkInv R' := by
  have hacks : AckInv R' := ackInv_step h.acks hdisc.1 hdisc.2 hstep
  refine ⟨hacks, h.intent_step hsole hstep, fun m s' g => h.small_step hsole hstep, ?_, ?_, ?_, ?_,
    ?_, fun e he b g => h.staged_step hstep he⟩
  · intro m s' b epoch after hpc
    have hb := became_step hstep m s'
    generalize R'.sess m s' = u at hb hpc
    cases hb with
    | same => exact h.records m s' b epoch after hpc
    | new => cases hpc
    | returned => exact absurd hpc (returned_not_committing _ _ _ _)
    | moved a v lag hact ha hadm hmove =>
      subst hact
      exact Move.records hmove hsole (h.records m s') hpc
  · exact fun p hp b g hb hg => h.pending_staged (.of_flight hstep hp hb) hb hg
  · exact fun p hp b hb => h.pending_real (.of_flight hstep hp hb) hb
  · intro x g st hg hst
    rcases h.says_step hstep hg with
      hg | ⟨n, s, a, v, lag, b, epoch, after, rfl, ha, hm, hself, hpc, rfl, hb⟩ <;>
      rcases h.says_step hstep hst with
        hst | ⟨n', s', a', v', lag', b', epoch', after', hact, ha', hm', hself', hpc', hx, hb'⟩
    · exact h.agree x g st hg hst
    · subst hact hx
      exact (h.moved_agree ha' hsole hm' (hself' ▸ (hacks.xids.sess n' s').coherent) hpc' hb').2 hg
    · exact (h.moved_agree ha hsole hm (hself ▸ (hacks.xids.sess n s).coherent) hpc hb).1 rfl st hst
    · cases hact
      rw [← hself', hself, hpc] at hpc'
      cases hpc'
      exact Option.some.inj (hb'.symm.trans hb)
  · intro x g m s' hg hx
    rcases h.says_step hstep hg with
      hbefore | ⟨n, s, a, v, lag, b, epoch, after, rfl, ha, hm, hself, hpc, rfl, hb⟩
    · rcases h.acks.xids.active_step hstep hx with ⟨hx', -⟩ | ⟨rfl, hl, hseed, -⟩
      · obtain ⟨hglob, hloc⟩ := h.mine x g m s' hbefore hx'
        have hb := became_step hstep m s'
        generalize R'.sess m s' = u at hb hx
        cases hb with
        | same => exact ⟨hglob, hloc⟩
        | new => cases hx
        | returned =>
          rw [globalXid_returned, localXid_returned]
          exact ⟨hglob, hloc⟩
        | moved a v lag hact ha hadm hmove =>
          subst hact
          exact Move.stays hmove hsole hx hglob hloc
      · exact absurd hbefore (h.acks.not_says_fresh hl hseed)
    · -- the proposer is the session that has the transaction open
      have hcoh : Coherent v.self := hself ▸ (hacks.xids.sess n s).coherent
      obtain ⟨rfl, rfl⟩ := hacks.uniq m s' n s b.xid hx (by simp [hself, activeXid, hpc])
      rw [hself]
      exact coherent_staging hcoh hpc (Move.records hm hsole (h.records m s') hpc) hb

theorem markInv_initial : MarkInv (Range.initial : Range Row) where
  acks := ackInv_initial
  intent _ _ := rfl
  small _ _ _ hg := nomatch hg
  records _ _ _ _ _ hpc := nomatch hpc
  flight _ hp := nomatch hp
  real _ hp := nomatch hp
  agree x g st hg := by
    obtain ⟨-, htip | ⟨p, hp, -⟩ | ⟨n, s, b, epoch, after, hpc, -⟩⟩ := hg
    · rw [show (Range.initial : Range Row).tip = .empty from rfl, clogGet_empty] at htip
      cases htip
    · cases hp
    · cases hpc
  mine x g n s hg hx := nomatch hx
  staged _ he := nomatch he

end Steps

def SoleStep (glob : GlobalView) (R : Range Row) (act : RangeAct Row) : Prop :=
  Disciplined R act ∧ SoleGlobal glob R act

theorem markInv_exec {acts : List (ClusterAct Row)} {C : MultiRangeCluster Row}
    (h : exec step initial acts = some C)
    (hok : Runs.Along step (OnRange SoleStep) .initial acts) (r : RangeId) :
    MarkInv (C.ranges r) :=
  range_invariant (I := fun _ R => MarkInv R)
    (fun _ _ _ _ hI hs hstep => markInv_step hI hs.1 hs.2 hstep) (fun _ _ _ _ hI => hI)
    markInv_initial hok h

section Runs

def addOne : Work ℕ := .update 1 (fun _ => .ok true) fun v => .ok (v + 1)

def stage (s : SessionId) (w : Work ℕ) (loop : List (Act ℕ)) : List (RangeAct ℕ) :=
  calls 0 s ([.start w, .takeSnapshot, .scan] ++ loop ++ [.propose, .apply true, .finish])

/-- A row is inserted, its update is staged into a first global transaction whose client goes
away, and the update is staged again into a second one, which commits. The first is aborted. -/
def adoptedRun : List (ClusterAct ℕ) :=
  onRange 0 (openGate 0 false ++ stage 0 insertOne [] ++ calls 0 0 [.release] ++
    calls 0 1 [.begin false, .join globalXidBase] ++
    stage 1 addOne [.next, .acquire 0, .recheck] ++ calls 0 1 [.drop] ++
    calls 0 2 [.begin false, .join (globalXidBase + 1)] ++
    stage 2 addOne [.next, .acquire 0, .recheck]) ++
  [.decide (globalXidBase + 1) true, .decide globalXidBase false]

/-- An INSERT on range 0 and one on range 1, both staged into one global transaction. -/
def twoRangeRun : List (ClusterAct ℕ) :=
  onRange 0 (openGate 0 false ++ calls 0 0 [.begin false, .join globalXidBase] ++
    stage 0 insertOne []) ++
  onRange 1 (openGate 0 false ++ calls 0 0 [.begin false, .join globalXidBase] ++
    stage 0 insertOne []) ++ [.decide globalXidBase true]

def lastStaged (r : RangeId) (x g : Xid) (C : MultiRangeCluster ℕ) : Bool :=
  match (C.ranges r).log.getLast? with
  | some ⟨.batch b, some g'⟩ => decide (b.xid = x) && decide (g' = g)
  | _ => false

theorem mem_of_lastStaged {r : RangeId} {x g : Xid} {C : MultiRangeCluster ℕ}
    (h : lastStaged r x g C = true) :
    ∃ e ∈ (C.ranges r).log, ∃ b, e.proposal = .batch b ∧ b.xid = x ∧ e.staged = some g := by
  unfold lastStaged at h
  split at h
  · rename_i b g' hlast
    rw [Bool.and_eq_true, decide_eq_true_eq, decide_eq_true_eq] at h
    exact ⟨_, List.mem_of_getLast? hlast, b, rfl, h.1, congrArg some h.2⟩
  · cases h

def soleCheck (glob : GlobalView) (R : Range ℕ) (a : RangeAct ℕ) : Bool :=
  disciplinedCheck R a && decide (SoleGlobal glob R a)

theorem soleStep_of_check {glob : GlobalView} {R : Range ℕ} {a : RangeAct ℕ}
    (h : soleCheck glob R a = true) : SoleStep glob R a := by
  rw [soleCheck, Bool.and_eq_true, decide_eq_true_eq] at h
  exact ⟨disciplined_of_check h.1, h.2⟩

end Runs

end Crabgresql.Cluster
