import Crabgresql.Owners
import Crabgresql.Single.Updates
import Crabgresql.Single.Replay

/-!
# What did not commit never shows

A transaction is given up when a statement of it returns an error, when its
block is rolled back and when its session is dropped. From then on nobody reads
what it wrote, the rows it changed show their previous committed contents, and
once its block has ended it neither runs nor holds a lock.
-/

namespace Crabgresql.Single

open Mvcc Kv Procarray Lockmgr Exec Session Engine Reads Cluster Function List Option Runs Tracked
open View

variable {Row : Type}
variable {f : Frame Row}

section Errors

variable {v v' : View Row} {a : Act Row}

/-- No error is recorded while a statement is under way. -/
def Silent (u : Sess Row) : Prop :=
  match u.pc with
  | .starting _ _ _ | .scanning _ | .looping _ | .acquiring _ _ | .locked _ _ => u.err = none
  | _ => True

variable {u : Sess Row}

theorem silent_frame (h : Silent u) (hf : u.pc.frame = some f) : u.err = none := by
  unfold Silent at h
  cases hpc : u.pc <;> rw [hpc] at hf h <;> first | exact h | cases hf

theorem silent_of_err (h : u.err = none) : Silent u := by
  unfold Silent
  split
  all_goals first | exact h | trivial

theorem silent_fail (v : View Row) (f : Frame Row) (e : ExecError) :
    Silent (v.fail env f e).self := by
  unfold Silent fail
  cases f.autocommit <;> cases f.work.isWrite <;> trivial

/-- How a step deals with the error of the last statement. -/
inductive Reports (v v' : View Row) : Prop
  | fail (f : Frame Row) (e : ExecError) (hf : v.self.pc.frame = some f)
      (hself : v'.self = (v.fail env f e).self)
  | silent (f : Frame Row) (hf : v.self.pc.frame = some f) (herr : v'.self.err = v.self.err)
  | other (hf : v.self.pc.frame = none) (hsilent : Silent v.self → Silent v'.self)

theorem silent_stripped (u : Sess Row) : Silent u.stripped ↔ Silent u := by
  obtain ⟨txn, gx, pc, err⟩ := u
  cases pc with
  | committing b epoch after => rcases after with _ | _ | _ | _ <;> exact Iff.rfl
  | _ => exact Iff.rfl

theorem eq_fail_of_stripped {e : ExecError}
    (h : u.stripped = (v.fail env f e).self.stripped) : u = (v.fail env f e).self := by
  obtain ⟨txn, gx, pc, err⟩ := u
  unfold fail at h ⊢
  cases hauto : f.autocommit <;> cases hw : f.work.isWrite <;>
    rcases pc with _ | _ | _ | _ | _ | _ | ⟨b, epoch, _ | _ | _ | _⟩ | _ | _ | _ <;>
    simp_all [Sess.stripped]

theorem step_reports (hs : Session.step env v a = some v') : Reports v v' := by
  obtain ⟨w, hw, -, -, hself⟩ := step_replicated hs
  have herr : w.self.stripped.err = v'.self.stripped.err := congrArg Sess.err hself
  have hsilent : Silent w.self → Silent v'.self := fun h =>
    (silent_stripped _).mp (hself ▸ (silent_stripped _).mpr h)
  cases step_move rfl hw with
  | fail _ f e _ _ hf => exact .fail f e hf (eq_fail_of_stripped hself.symm)
  | fill f _ _ _ _ _ hpc | target f _ _ hpc | grant f _ _ _ hpc | wait f _ _ _ hpc
  | take f _ _ _ hpc | done f hpc | submit f hpc | stage f _ _ _ hpc =>
    exact .silent f (by rw [hpc]; rfl) herr.symm
  | walk _ f _ hpc =>
    refine .silent f ?_ herr.symm
    rcases hpc with hpc | hpc | ⟨r, hpc⟩ <;> rw [hpc] <;> rfl
  | alloc _ _ _ hpc | resume _ _ _ hpc =>
    exact .other (by rw [hpc]; rfl) fun _ => hsilent rfl
  | read _ _ _ _ _ hpc =>
    refine .other (by rw [hpc]; rfl) fun h => hsilent ?_
    unfold Silent at h
    rw [hpc] at h
    exact h
  | apply ok b epoch after hpc =>
    refine .other (by rw [hpc]; rfl) fun _ => hsilent ?_
    cases after <;> cases ok <;> cases hgx : v.self.globalXid <;>
      simp [Silent, Sess.returned, hgx]
  | _ =>
    rename v.self.pc = _ => hpc
    exact .other (by rw [hpc]; rfl) fun _ => hsilent trivial

theorem silent_step (h : Silent v.self) (hs : Session.step env v a = some v') : Silent v'.self := by
  cases step_reports hs with
  | fail f e hf hself =>
    rw [hself]
    exact silent_fail v f e
  | silent f hf herr => exact silent_of_err (herr.trans (silent_frame h hf))
  | other hf hsilent => exact hsilent h

theorem aborting_fail {sh : Shared Row} {ts : List RowId} (e : ExecError)
    (hf : FrameInv sh v.self.txn f ts) : Aborting f.xid (v.fail env f e).self := by
  have hblock := hf.block
  unfold Block at hblock
  cases hauto : f.autocommit with
  | true =>
    cases hw : f.work.isWrite with
    | true => exact .inr (.inl ⟨env.epoch, by simp [fail, hauto, hw]⟩)
    | false => exact .inr (.inr ⟨false, by simp [fail, hauto, hw]⟩)
  | false =>
    rw [hauto] at hblock
    obtain ⟨c, htxn, hx, -⟩ := hblock
    exact .inl ⟨by simp [fail, hauto], c, by simp [fail, htxn, TxnState.fail], hx⟩

end Errors

section Runs

/-- Everything that holds in a run with failing reads. -/
structure EventInv (T : Tracked Row) : Prop where
  inv : Inv T
  owned : Owned T.engine
  silent : ∀ s, Silent (T.sessions s)

variable {T T' : Tracked Row} {e : Event Row} {es : List (Event Row)} {x : Xid}

theorem EventInv.set {s : SessionId} {v : View Row} {log : History Row}
    (h : EventInv T) (hinv : Inv (T.set s v log)) (hc : Coherent v.self)
    (hv : Handles (T.view s) v) (hsilent : Silent v.self) : EventInv (T.set s v log) := by
  refine ⟨hinv, h.owned.set hc hv, fun s' => ?_⟩
  change Silent (Function.update T.sessions s v.self s')
  by_cases hs : s' = s
  · subst hs
    rw [update_self]
    exact hsilent
  · rw [update_of_ne hs]
    exact h.silent s'

theorem handles_selectFails {v v' : View Row} (h : v.selectFails = some v') :
    Coherent v'.self ∧ Handles v v' ∧ Silent v'.self := by
  obtain ⟨hpc, txn, e, rfl, hcase⟩ := selectFails_cases h
  have hlocal : txn.localXid = v.self.txn.localXid := by
    rcases hcase with ⟨rfl, htxn⟩ | ⟨c, c₀, rfl, htxn | htxn, hx, -⟩ <;> rw [htxn]
    · exact hx
    · exact hx
  refine ⟨?_, .quiet rfl rfl ?_ ?_, ?_⟩
  · unfold Coherent
    simp [hpc]
  · rw [activeXid_ready hpc, ← hlocal]
    exact activeXid_ready hpc
  · rw [holding_ready hpc, ← hlocal]
    exact holding_ready hpc
  · unfold Silent
    simp [hpc]

theorem event_handles (h : EventInv T) (hs : T.event e = some T') :
    ∃ s v log, T' = T.set s v log ∧ Coherent v.self ∧ Handles (T.view s) v ∧ Silent v.self := by
  cases e with
  | call c =>
    obtain ⟨-, v, hv, rfl⟩ := step_cases hs
    obtain ⟨hc, hhandles⟩ := step_handles (v := T.view c.1) (h.owned.coherent c.1) hv
    exact ⟨c.1, v, _, rfl, hc, hhandles, silent_step (v := T.view c.1) (h.silent c.1) hv⟩
  | readError s =>
    obtain ⟨v, hv, rfl⟩ := map_eq_some_iff.mp hs
    exact ⟨s, v, _, rfl, handles_selectFails hv⟩

theorem eventInv_event (h : EventInv T) (hs : T.event e = some T') : EventInv T' := by
  have hinv := inv_event h.inv hs
  obtain ⟨s, v, log, rfl, hc, hv, hsilent⟩ := event_handles h hs
  exact h.set hinv hc hv hsilent

theorem eventInv_initial : EventInv (Tracked.initial : Tracked Row) :=
  ⟨inv_initial, owned_boot _, fun _ => trivial⟩

theorem eventInv_exec (h : EventInv T) (he : exec event T es = some T') : EventInv T' :=
  exec_invariant (fun _ _ _ hI _ hs => eventInv_event hI hs) h
    (along_trivial (fun _ _ => trivial) _ es) he

theorem heldOnlyBy_exec {s : SessionId} (h : EventInv T) (hx : HeldOnlyBy T.engine s x)
    (he : exec event T es = some T') : HeldOnlyBy T'.engine s x := by
  refine (exec_invariant (I := fun T => EventInv T ∧ HeldOnlyBy T.engine s x)
    (fun T e T' hI _ hs => ⟨eventInv_event hI.1 hs, ?_⟩) ⟨h, hx⟩
    (along_trivial (fun _ _ => trivial) _ es) he).2
  obtain ⟨s', v, log, rfl, -, hv, -⟩ := event_handles hI.1 hs
  exact hI.2.set hv

theorem doomed_event (hI : Inv T) (h : Doomed x T) (hs : T.event e = some T') : Doomed x T' := by
  cases e with
  | call => exact doomed_step hI h hs
  | readError s =>
    obtain ⟨v, hv, rfl⟩ := map_eq_some_iff.mp hs
    obtain ⟨hpc, txn, e, rfl, hcase⟩ := selectFails_cases hv
    change (T.sessions s).pc = .ready at hpc
    refine ⟨h.uncommitted, h.ending.imp id ?_⟩
    rintro ⟨s', hab⟩
    refine ⟨s', ?_⟩
    by_cases hs : s' = s
    · subst hs
      rcases hab with ⟨-, c, htxn, hx⟩ | ⟨epoch, hr⟩ | ⟨ack, hr⟩
      · rcases hcase with ⟨-, hidle⟩ | ⟨c', c₀, rfl, hc₀, hxid, -⟩
        · rw [show (T.sessions s').txn = .idle from hidle] at htxn
          cases htxn
        · change (T.sessions s').txn = _ ∨ (T.sessions s').txn = _ at hc₀
          rw [htxn] at hc₀
          rcases hc₀ with hc₀ | hc₀ <;> cases hc₀
          refine .inl ⟨?_, c', ?_, hxid.trans hx⟩ <;> simp [Tracked.set, view, hpc]
      · rw [hpc] at hr
        cases hr
      · rw [hpc] at hr
        cases hr
    · simpa [Tracked.set, update_of_ne hs] using hab

theorem doomed_events (hI : Inv T)
    (h : Doomed x T) (he : exec event T es = some T') : Doomed x T' :=
  (exec_invariant (I := fun T => Inv T ∧ Doomed x T)
    (fun _ _ _ hd _ hs => ⟨inv_event hd.1 hs, doomed_event hd.1 hd.2 hs⟩) ⟨hI, h⟩
    (along_trivial (fun _ _ => trivial) _ es) he).2

end Runs

/-- Event `e` of session `s` gives up transaction `x`. -/
inductive GivesUp (T : Tracked Row) (s : SessionId) (x : Xid) (T' : Tracked Row) : Event Row → Prop
  | error (a : Act Row) (f : Frame Row) (hf : (T.sessions s).pc.frame = some f) (hx : f.xid = x)
      (hs : T.step (s, a) = some T') (herr : (T'.sessions s).err ≠ none) :
      GivesUp T s x T' (.call (s, a))
  | readError (hx : (T.sessions s).txn.localXid = some x)
      (hs : T.event (.readError s) = some T') : GivesUp T s x T' (.readError s)
  | rollback (hx : (T.sessions s).txn.localXid = some x)
      (hs : T.step (s, .rollback) = some T') : GivesUp T s x T' (.call (s, .rollback))
  | drop (hx : (T.sessions s).txn.localXid = some x)
      (hs : T.step (s, .drop) = some T') : GivesUp T s x T' (.call (s, .drop))

section Given

variable {T T' : Tracked Row} {s : SessionId} {x : Xid} {e : Event Row}

theorem GivesUp.event (h : GivesUp T s x T' e) : T.event e = some T' := by
  cases h <;> assumption

theorem PcInv.frame {sh : Shared Row} {txn : TxnState} {pc : Pc Row} (h : PcInv sh txn pc)
    (hf : pc.frame = some f) : ∃ ts, FrameInv sh txn f ts := by
  cases pc <;> cases hf
  · exact ⟨_, h.1⟩
  · exact ⟨_, h⟩
  · exact ⟨_, h⟩
  · exact ⟨_, h.1⟩

theorem rollback_cases {v v' : View Row} {x : Xid} (h : v.rollback env = some v')
    (hx : v.self.txn.localXid = some x) : v.self.pc = .ready ∧
      v'.self.pc = .committing (.record x .aborted none) env.epoch (.close false) := by
  obtain ⟨kv, pa, lm, seq, txn, gx, pc, err⟩ := v
  simp only [rollback] at h
  split at h
  · cases hx
  · rename_i c
    cases h
    change c.xid = some x at hx
    exact ⟨rfl, by simp [abortCtx, hx]⟩
  · rename_i c
    cases h
    change c.xid = some x at hx
    exact ⟨rfl, by simp [abortCtx, hx]⟩
  · cases h

theorem drop_cases {v v' : View Row} {x : Xid} (h : v.drop = some v')
    (hx : v.self.txn.localXid = some x) : v.self.pc = .ready ∧ v'.pa = v.pa.finish x := by
  obtain ⟨kv, pa, lm, seq, txn, gx, pc, err⟩ := v
  simp only [View.drop] at h
  split at h
  · change txn.localXid = some x at hx
    simp only [hx] at h
    cases h
    exact ⟨rfl, rfl⟩
  · cases h

theorem GivesUp.pc (h : GivesUp T s x T' e) :
    (T.sessions s).pc = .ready ∧ (T.sessions s).txn.localXid = some x ∨
      ∃ f, (T.sessions s).pc.frame = some f ∧ f.xid = x := by
  cases h with
  | error a f hf hx => exact .inr ⟨f, hf, hx⟩
  | readError hx hs =>
    obtain ⟨v, hv, -⟩ := map_eq_some_iff.mp hs
    exact .inl ⟨(selectFails_cases hv).1, hx⟩
  | rollback hx hs =>
    obtain ⟨-, v, hv, -⟩ := step_cases hs
    exact .inl ⟨(rollback_cases (v := T.view s) hv hx).1, hx⟩
  | drop hx hs =>
    obtain ⟨-, v, hv, -⟩ := step_cases hs
    exact .inl ⟨(drop_cases (v := T.view s) hv hx).1, hx⟩

theorem GivesUp.active (h : GivesUp T s x T' e) (hI : EventInv T) :
    activeXid (T.sessions s) = some x := by
  rcases h.pc with ⟨hpc, hx⟩ | ⟨f, hf, hx⟩
  · exact (activeXid_ready hpc).trans hx
  · exact hx ▸ (frame_coherent (hI.owned.coherent s) hf).1

theorem GivesUp.undecided (h : GivesUp T s x T' e) (hI : EventInv T) :
    T.sh.kv.clogGet x = .inProgress := by
  refine (hI.inv.sess s).undecided x (h.active hI) ?_
  unfold isFinishing
  split
  · rename_i y ack hfin
    rcases h.pc with ⟨hpc, -⟩ | ⟨f, hf, -⟩
    · rw [hpc] at hfin
      cases hfin
    · rw [hfin] at hf
      cases hf
  · rfl

theorem GivesUp.clog (h : GivesUp T s x T' e) : T'.sh.kv.clogGet x = T.sh.kv.clogGet x := by
  have hstep : ∀ a, T.step (s, a) = some T' → T'.sh.kv.clogGet x = T.sh.kv.clogGet x := by
    intro a hs
    obtain ⟨-, v, hv, rfl⟩ := step_cases hs
    rcases clogGet_step hv x with hsame | ⟨b, epoch, after, -, hcom, -⟩
    · exact hsame
    · change (T.sessions s).pc = _ at hcom
      rcases h.pc with ⟨hpc, -⟩ | ⟨f, hf, -⟩
      · rw [hpc] at hcom
        cases hcom
      · rw [hcom] at hf
        cases hf
  cases h with
  | error a f hf hx hs => exact hstep a hs
  | readError hx hs =>
    obtain ⟨v, hv, rfl⟩ := map_eq_some_iff.mp hs
    obtain ⟨-, txn, e, rfl, -⟩ := selectFails_cases hv
    rfl
  | rollback hx hs | drop hx hs => exact hstep _ hs

theorem GivesUp.ending (h : GivesUp T s x T' e) (hI : EventInv T) :
    T'.sh.pa.Finished x ∨ ∃ s, Aborting x (T'.sessions s) := by
  have hself : ∀ v log, (T.set s v log).sessions s = v.self := fun v log => update_self ..
  have hlt := hI.owned.below s x (holding_of_activeXid (h.active hI))
  cases h with
  | error a f hf hx hs herr =>
    obtain ⟨-, v, hv, rfl⟩ := step_cases hs
    rw [hself] at herr
    refine .inr ⟨s, ?_⟩
    rw [hself]
    cases step_reports hv with
    | fail f' e hf' hv' =>
      obtain rfl : f = f' := Option.some.inj (hf.symm.trans hf')
      obtain ⟨ts, hframe⟩ := (hI.inv.sess s).pc.frame hf
      rw [hv', ← hx]
      exact aborting_fail (v := T.view s) e hframe
    | silent f' hf' hsame => exact absurd (hsame.trans (silent_frame (hI.silent s) hf)) herr
    | other hnone => exact absurd (hf.symm.trans hnone) (by simp)
  | readError hx hs =>
    obtain ⟨v, hv, rfl⟩ := map_eq_some_iff.mp hs
    refine .inr ⟨s, ?_⟩
    rw [hself]
    obtain ⟨hpc, txn, e, rfl, hcase⟩ := selectFails_cases hv
    rcases hcase with ⟨rfl, htxn⟩ | ⟨c, c₀, rfl, htxn, hxid, -⟩
    · rw [show (T.sessions s).txn = .idle from htxn] at hx
      cases hx
    · refine .inl ⟨hpc, c, rfl, hxid.trans ?_⟩
      rcases htxn with htxn | htxn
      · rw [show (T.sessions s).txn = .inTransaction c₀ from htxn] at hx
        exact hx
      · rw [show (T.sessions s).txn = .failed c₀ from htxn] at hx
        exact hx
  | rollback hx hs =>
    obtain ⟨-, v, hv, rfl⟩ := step_cases hs
    refine .inr ⟨s, ?_⟩
    rw [hself]
    exact .inr (.inl ⟨env.epoch, (rollback_cases (v := T.view s) hv hx).2⟩)
  | drop hx hs =>
    obtain ⟨-, v, hv, rfl⟩ := step_cases hs
    have hpa : v.pa = T.sh.pa.finish x := (drop_cases (v := T.view s) hv hx).2
    refine .inl ?_
    change v.pa.Finished x
    rw [hpa]
    exact ⟨hlt, fun hm => (ProcArray.mem_running_finish.mp hm).2 rfl⟩

theorem GivesUp.doomed (h : GivesUp T s x T' e) (hI : EventInv T) : Doomed x T' := by
  refine ⟨?_, h.ending hI⟩
  change ¬ T'.sh.kv.clogGet x = .committed
  rw [h.clog, h.undecided hI]
  decide

end Given

/-- A scan that runs at the end `T` of run `es`, with a snapshot taken on the way. -/
def ScansIn (es : List (Event Row)) (T : Tracked Row) (S : Snapshot) (own : Option Xid) : Prop :=
  ∃ es₁ es₂ T₁, es = es₁ ++ es₂ ∧ exec event Tracked.initial es₁ = some T₁ ∧
    Scans T₁ es₂ T S own

def Tracked.contents (T : Tracked Row) (k : RowKey) : Option Row :=
  Chronicle.final Entry.post none (T.sh.log.committedLog k)

/-- What transaction `x` of session `s` found in row `k` when it first changed it, in a batch that
is written or in the statement under way. -/
def Tracked.found (T : Tracked Row) (s : SessionId) (x : Xid) (k : RowKey) : Option (Option Row) :=
  ((T.sh.log.pend.filter fun q => q.key = k ∧ q.xid = x).map Entry.pre ++
    ((pendingChanges (T.sessions s)).filter fun c => c.key = k).map Change.pre).head?

section Found

variable {T T' : Tracked Row} {s : SessionId} {x : Xid} {e : Event Row} {k : RowKey}

theorem mem_chain_of_committedLog {q : Entry Row} (hq : q ∈ T.sh.log.committedLog k) :
    q.xid ∈ T.sh.log.chain k := by
  obtain ⟨hmem, hk⟩ := mem_filter.mp hq
  refine (Chronicle.mem_authors Entry.xid).mpr ⟨q, ?_, rfl⟩
  exact mem_filter.mpr ⟨mem_append_left _ hmem, hk⟩

theorem GivesUp.pending (h : GivesUp T s x T' e) (hI : EventInv T) {c : Change Row}
    (hc : c ∈ pendingChanges (T.sessions s)) : ∃ cover, Pending T.sh x cover c := by
  rcases h.pc with ⟨hpc, -⟩ | ⟨f, hf, rfl⟩
  · unfold pendingChanges at hc
    rw [hpc] at hc
    cases hc
  · obtain ⟨ts, hframe⟩ := (hI.inv.sess s).pc.frame hf
    refine ⟨_, hframe.changes.pending c ?_⟩
    unfold pendingChanges at hc
    cases hpc : (T.sessions s).pc <;> rw [hpc] at hf hc <;> cases hf
    · cases hc
    all_goals exact hc

/-- When `x` is given up, every committed change of a row it changed is over, and left what `x`
found there. -/
theorem GivesUp.found (h : GivesUp T s x T' e) (hI : EventInv T) {pre : Option Row}
    (hfound : T.found s x k = some pre) :
    pre = T.contents k ∧ ∀ q ∈ T.sh.log.committedLog k, T.sh.pa.Finished q.xid := by
  have hsh := hI.inv.shared
  have hne : ∀ q ∈ T.sh.log.committedLog k, q.xid ≠ x := by
    rintro q hq rfl
    have hcom := hsh.hist_committed q (mem_filter.mp hq).1
    rw [Shared.Committed, h.undecided hI] at hcom
    cases hcom
  have hsplit : T.sh.log.rowLog k =
      T.sh.log.committedLog k ++ T.sh.log.pend.filter fun q => q.key = k := filter_append ..
  unfold Tracked.found at hfound
  cases hpend : T.sh.log.pend.filter fun q => q.key = k ∧ q.xid = x with
  | cons q qs =>
    -- `x` is the last transaction of the row's chain, and the only open one
    rw [hpend] at hfound
    cases hfound
    obtain ⟨hmem, hq⟩ := mem_filter.mp (hpend ▸ mem_cons_self : q ∈ _)
    obtain ⟨hk, hx⟩ := of_decide_eq_true hq
    have hown : T.sh.log.pend.filter (fun q => q.key = k) = q :: qs := by
      rw [← hpend]
      refine filter_congr fun q' hq' => ?_
      by_cases hk' : q'.key = k
      · simp [hk', ← hx, pend_xid_eq hsh hq' hmem (hk'.trans hk.symm)]
      · simp [hk']
    refine ⟨?_, fun q' hq' => ?_⟩
    · have hlinked := (hsh.row k).linked
      rw [hsplit, hown, Chronicle.linked_append] at hlinked
      exact hlinked.2.1
    · have hlast := last_of_running (hsh.row k) (hk ▸ mem_chain_of_pend hmem)
        (hsh.pend_open q hmem).1
      obtain ⟨c, hc⟩ := List.getLast?_eq_some_iff.mp hlast
      have hchain := mem_chain_of_committedLog hq'
      rw [hc] at hchain
      refine ((hsh.row k).settled q'.xid ?_).2
      rw [hc, dropLast_concat]
      rcases mem_append.mp hchain with hin | hin
      · exact hin
      · exact absurd ((mem_singleton.mp hin).trans hx) (hne q' hq')
  | nil =>
    -- the statement under way has computed the change from the last version of the row
    rw [hpend, map_nil, nil_append, head?_map, map_eq_some_iff] at hfound
    obtain ⟨c, hc, rfl⟩ := hfound
    obtain ⟨hmem, hk⟩ := mem_filter.mp (mem_of_head? hc)
    obtain rfl := of_decide_eq_true hk
    obtain ⟨cover, hc⟩ := h.pending hI hmem
    have hcurrent : ∀ {curXmin cur}, Current T.sh x cover c.key curXmin cur →
        some cur = T.contents c.key ∧
          ∀ q ∈ T.sh.log.committedLog c.key, T.sh.pa.Finished q.xid := by
      intro curXmin cur hcur
      have hnone : T.sh.log.pend.filter (fun q => q.key = c.key) = [] := by
        rw [filter_eq_nil_iff] at hpend ⊢
        intro q hq hqk
        have hqk := of_decide_eq_true hqk
        have hqx : q.xid ≠ x := fun hqx => hpend q hq (decide_eq_true ⟨hqk, hqx⟩)
        exact (hsh.pend_open q hq).2 (hcur.others q.xid (hqk ▸ mem_chain_of_pend hq) hqx).1
      refine ⟨?_, fun q hq => ?_⟩
      · rw [← hcur.image, ← final_eq_image hcur.last, hsplit, hnone, append_nil]
        rfl
      · exact (hcur.others q.xid (mem_chain_of_committedLog hq) (hne q hq)).2
    cases c with
    | insert k row =>
      have hnil : T.sh.log.committedLog k = [] := (append_eq_nil_iff.mp (hsplit ▸ hc.1)).1
      refine ⟨?_, fun q hq => ?_⟩
      · change none = Chronicle.final Entry.post none (T.sh.log.committedLog k)
        rw [hnil]
        rfl
      · rw [show T.sh.log.committedLog (Change.insert k row).key = [] from hnil] at hq
        cases hq
    | update | delete => exact hcurrent hc

end Found

section Readers

variable {es : List (Event Row)} {T T₂ : Tracked Row} {S : Snapshot} {own : Option Xid} {x : Xid}

theorem ScansIn.viewInv (hscan : ScansIn es T₂ S own)
    (h : exec event Tracked.initial es = some T₂) : ViewInv T₂.sh S own ∧
      ∀ x, own = some x → x ∈ T₂.sh.pa.running ∧ ¬ T₂.sh.Committed x := by
  obtain ⟨es₁, es₂, T₁, rfl, h₁, hscan⟩ := hscan
  obtain ⟨U, hU, h₂⟩ := exec_append.mp h
  rw [h₁] at hU
  cases hU
  exact hscan.viewInv (inv_events h₁) h₂

theorem own_ne_doomed (hscan : ScansIn es T₂ S own)
    (h : exec event Tracked.initial es = some T₂) (hdoom : Doomed x T₂) : own ≠ some x := by
  rintro rfl
  have hrun := ((hscan.viewInv h).2 x rfl).1
  have hI := inv_events h
  obtain ⟨s', hab⟩ := hdoom.ending.resolve_left (not_finished_of_running hrun)
  have huniq : ∀ s, activeXid (T₂.sessions s) = some x → s' = s := fun s hs =>
    hI.uniq s' s x hab.activeXid hs
  obtain ⟨es₁, es₂, T₁, rfl, h₁, hscan⟩ := hscan
  obtain ⟨U, hU, h₂⟩ := exec_append.mp h
  rw [h₁] at hU
  cases hU
  generalize hown : some x = own at hscan
  cases hscan with
  | statement s f hpc =>
    cases hown
    obtain rfl := huniq s (activeXid_of_frame (r := 0) (.inl hpc))
    rcases hab with ⟨hr, -⟩ | ⟨epoch, hr⟩ | ⟨ack, hr⟩ <;> rw [hr] at hpc <;> cases hpc
  | block s c hpc htxn =>
    obtain rfl := huniq s ((activeXid_ready hpc).trans (by rw [htxn]; exact hown.symm))
    rcases hab with ⟨-, c', hfail, -⟩ | ⟨epoch, hr⟩ | ⟨ack, hr⟩
    · rw [hfail] at htxn
      cases htxn
    · rw [hr] at hpc
      cases hpc
    · rw [hr] at hpc
      cases hpc
  | select s hpc hopen hes =>
    have hsame := (exec_setSess hes (T₁.sessions s) h₂).2
    rw [← hsame] at hpc hopen hown
    obtain rfl := huniq s ((activeXid_ready hpc).trans hown.symm)
    rcases hab with ⟨-, c', hfail, -⟩ | ⟨epoch, hr⟩ | ⟨ack, hr⟩
    · exact hopen c' hfail
    · rw [hr] at hpc
      cases hpc
    · rw [hr] at hpc
      cases hpc

theorem scanLive_creator (hI : SharedInv T₂.sh) {glob : GlobalView} {gsnap : Snapshot}
    {t : TableId} {q : RowId × Xid × Row} (hq : q ∈ scanLive T₂.sh.kv glob gsnap S own t) :
    own = some q.2.1 ∨ T₂.sh.Committed q.2.1 := by
  obtain ⟨r, v⟩ := q
  rw [mem_scanLive, globalStatus_eq hI] at hq
  obtain ⟨u, -, hlive, rfl⟩ := findVisibleOne_some _ _ _ hq
  exact (committedVisible_iff.mp ((isLive_iff ..).mp hlive).1).imp id And.right

/-- A reader that has not changed row `k` itself and whose snapshot sees every committed change
of it finds its last committed contents. -/
theorem scanLive_contents (hI : SharedInv T₂.sh) (hV : ViewInv T₂.sh S own)
    (hrun : ∀ x, own = some x → x ∈ T₂.sh.pa.running) {k : RowKey}
    (hown : ∀ q ∈ T₂.sh.log.pend, own = some q.xid → q.key ≠ k)
    (hsee : ∀ q ∈ T₂.sh.log.committedLog k, S.canSee q.xid) (glob : GlobalView)
    (gsnap : Snapshot) (row : Row) : (∃ y, (k.2, y, row) ∈ scanLive T₂.sh.kv glob gsnap S own k.1) ↔
      T₂.contents k = some row := by
  have hseen : seenLog T₂.sh S own k = T₂.sh.log.committedLog k := by
    unfold seenLog History.rowLog History.committedLog
    rw [filter_append, filter_append, filter_eq_self.mpr, append_right_eq_self,
      filter_eq_nil_iff]
    · intro q hq hvis
      obtain ⟨hmem, hk⟩ := mem_filter.mp hq
      rcases committedVisible_iff.mp hvis with hself | ⟨-, hcom⟩
      · exact hown q hmem hself (of_decide_eq_true hk)
      · exact (hI.pend_open q hmem).2 hcom
    · intro q hq
      obtain ⟨hmem, -⟩ := mem_filter.mp hq
      exact committedVisible_iff.mpr (.inr ⟨hsee q hq, hI.hist_committed q hmem⟩)
  unfold contents
  rw [← hseen, ← findVisibleOne_seenLog hI hV hrun, map_eq_some_iff]
  simp only [mem_scanLive, globalStatus_eq hI]
  constructor
  · rintro ⟨y, hy⟩
    exact ⟨(y, row), hy, rfl⟩
  · rintro ⟨v, hv, rfl⟩
    exact ⟨v.1, hv⟩

end Readers

/-- What did not commit never shows. From the moment `x` is given up: no scan returns a version
that `x` wrote; a row is returned with its last committed contents from before to every reader that
sees them, until another transaction commits a change of it or the reader makes one; for a row that
`x` changed these are what `x` found, and every snapshot taken from then on sees them; and once
session `s` is out of `x`, it is not running and holds no lock. -/
theorem given_up_never_shows {es₁ es₂ : List (Event Row)} {T T' T₂ : Tracked Row} {s : SessionId}
    {x : Xid} {e : Event Row}
    (h₁ : Runs.exec Tracked.event Tracked.initial es₁ = some T) (hgive : GivesUp T s x T' e)
    (h₂ : Runs.exec event T' es₂ = some T₂) :
    (∀ S own, ScansIn (es₁ ++ e :: es₂) T₂ S own → ∀ glob gsnap,
      (∀ t, ∀ q ∈ scanLive T₂.sh.kv glob gsnap S own t, q.2.1 ≠ x) ∧
      ∀ k, T₂.sh.log.committedLog k = T.sh.log.committedLog k →
        (∀ q ∈ T₂.sh.log.pend, own = some q.xid → q.key ≠ k) →
        (∀ q ∈ T.sh.log.committedLog k, S.canSee q.xid) →
        ∀ row, (∃ y, (k.2, y, row) ∈ scanLive T₂.sh.kv glob gsnap S own k.1) ↔
          T.contents k = some row) ∧
    (∀ k pre, T.found s x k = some pre → pre = T.contents k ∧
      ∀ es T₁, Runs.exec event T es = some T₁ →
        ∀ q ∈ T.sh.log.committedLog k, T₁.sh.pa.snapshot.canSee q.xid) ∧
    ((T₂.sessions s).pc = .ready → (T₂.sessions s).txn.localXid ≠ some x →
      x ∉ T₂.sh.pa.running ∧ ∀ k, ¬ T₂.sh.lm.Holds k x) := by
  have hI := eventInv_exec eventInv_initial h₁
  have hI' := eventInv_event hI hgive.event
  have hI₂ := eventInv_exec hI' h₂
  have hrun : exec event Tracked.initial (es₁ ++ e :: es₂) = some T₂ :=
    exec_append.mpr ⟨T, h₁, exec_cons.mpr ⟨T', hgive.event, h₂⟩⟩
  have hdoom := doomed_events hI'.inv (hgive.doomed hI) h₂
  refine ⟨fun S own hscan glob gsnap => ⟨fun t q hq => ?_, fun k hlog hown hsee row => ?_⟩,
    fun k pre hfound => ?_, fun hpc hx => ?_⟩
  · rintro rfl
    rcases scanLive_creator hI₂.inv.shared hq with hself | hcom
    · exact own_ne_doomed hscan hrun hdoom hself
    · exact hdoom.uncommitted hcom
  · obtain ⟨hV, hactive⟩ := hscan.viewInv hrun
    rw [show T.contents k = T₂.contents k by unfold contents; rw [hlog]]
    exact scanLive_contents hI₂.inv.shared hV (fun y hy => (hactive y hy).1) hown (hlog ▸ hsee)
      glob gsnap row
  · obtain ⟨hpre, hfin⟩ := hgive.found hI hfound
    refine ⟨hpre, fun es T₁ h q hq => ?_⟩
    exact ProcArray.canSee_snapshot.mpr ((since_exec hI.inv h).finished q.xid (hfin q hq))
  · have hheld := hI.owned.heldOnlyBy (holding_of_activeXid (hgive.active hI))
    have honly := heldOnlyBy_exec hI hheld (exec_cons.mpr ⟨T', hgive.event, h₂⟩)
    refine honly.ended hI₂.owned ?_
    change holding (T₂.sessions s) ≠ some x
    rw [holding_ready hpc]
    exact hx

def changeRow : List (Event ℕ) :=
  (autocommit 0 insertTen [] ++
    ([.begin false, .start addOne, .takeSnapshot, .scan, .next, .acquire 0, .recheck, .propose,
      .apply true] : List (Act ℕ)).map fun a => (1, a)).map .call

def undoRow : List (Event ℕ) :=
  ([.apply true, .finish, .release] : List (Act ℕ)).map fun a => .call (1, a)

/-- After the ROLLBACK of the block session 2 reads the row as it was. -/
theorem given_up_never_shows_rollback :
    ∃ T T' T₂ : Tracked ℕ, Runs.exec Tracked.event Tracked.initial changeRow = some T ∧
      T.step (1, .rollback) = some T' ∧ Runs.exec event T' undoRow = some T₂ ∧
      (∃ y, (1, y, 10) ∈ scanLive T₂.sh.kv .initial noGlobalSnapshot T₂.sh.pa.snapshot none 1) ∧
      2 ∉ T₂.sh.pa.running := by
  have h : (exec event Tracked.initial changeRow).any (fun T =>
      (T.step (1, .rollback)).any fun T' =>
        (exec event T' undoRow).any fun T₂ =>
          decide ((T.sessions 1).txn.localXid = some 2 ∧ T.found 1 2 (1, 1) = some (some 10) ∧
            T₂.sh.log.hist.length = T.sh.log.hist.length ∧ (T₂.sessions 1).txn = .idle ∧
            (T₂.sessions 2).txn = .idle) &&
          (Pc.isReady (T₂.sessions 1).pc && Pc.isReady (T₂.sessions 2).pc)) = true := by decide
  obtain ⟨T, hT, hx⟩ := (Option.any_eq_true _ _).mp h
  obtain ⟨T', hT', hx⟩ := (Option.any_eq_true _ _).mp hx
  obtain ⟨T₂, hT₂, hx⟩ := (Option.any_eq_true _ _).mp hx
  rw [Bool.and_eq_true, Bool.and_eq_true, decide_eq_true_eq] at hx
  obtain ⟨⟨hxid, hfound, hlen, hidle₁, hidle₂⟩, hready₁, hready₂⟩ := hx
  have hrest : exec event T (.call (1, .rollback) :: undoRow) = some T₂ :=
    exec_cons.mpr ⟨T', hT', hT₂⟩
  obtain ⟨hread, hrow, hend⟩ := given_up_never_shows hT (.rollback hxid hT') hT₂
  obtain ⟨hpre, hsee⟩ := hrow (1, 1) _ hfound
  have hscan : ScansIn (changeRow ++ .call (1, .rollback) :: undoRow) T₂ T₂.sh.pa.snapshot none := by
    refine ⟨_, [], T₂, (append_nil _).symm, exec_append.mpr ⟨T, hT, hrest⟩, ?_⟩
    rw [show (none : Option Xid) = (T₂.sessions 2).txn.localXid by rw [hidle₂]; rfl]
    refine .select 2 (Pc.eq_ready hready₂) (fun c hc => ?_) fun e he => by cases he
    rw [hidle₂] at hc
    cases hc
  -- the history has not grown
  have hlog : T₂.sh.log.committedLog (1, 1) = T.sh.log.committedLog (1, 1) := by
    obtain ⟨ext, hext, -⟩ := (since_exec (inv_events hT) hrest).hist
    have hnil : ext = [] := by
      rw [hext, length_append] at hlen
      exact eq_nil_of_length_eq_zero (by omega)
    unfold History.committedLog
    rw [hext, hnil, append_nil]
  refine ⟨T, T', T₂, hT, hT', hT₂, ?_,
    (hend (Pc.eq_ready hready₁) (by rw [hidle₁]; simp [TxnState.localXid])).1⟩
  exact ((hread _ none hscan .initial noGlobalSnapshot).2 (1, 1) hlog (fun q _ hq => by cases hq)
    (hsee _ T₂ hrest) 10).mpr hpre.symm

end Crabgresql.Single
