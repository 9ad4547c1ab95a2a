import Crabgresql.Single.Isolation

/-!
# No lost update

Along the committed changes of a row every pre-image is the image left by the
change before it. A REPEATABLE READ transaction that meets a row changed after
its snapshot fails, and nothing it wrote is ever committed.
-/

namespace Crabgresql.Single

open Mvcc Kv Procarray Lockmgr Exec Session Engine List View Chronicle Runs Entry

variable {Row : Type}
variable {x : Xid} {T : Tracked Row}

def History.committedLog (h : History Row) (k : RowKey) : List (Entry Row) :=
  h.hist.filter fun e => e.key = k

theorem committedLog_linked (h : Inv T) (k : RowKey) :
    Linked pre post none (T.sh.log.committedLog k) := by
  have hl := (h.shared.row k).linked
  rw [History.rowLog, filter_append, linked_append] at hl
  exact hl.1

section Quiescent

variable {sh : Shared Row}

theorem findVisibleOne_quiescent (h : SharedInv sh) (hrun : sh.pa.running = []) (k : RowKey) :
    (findVisibleOne sh.kv.clogGet sh.pa.snapshot none (sh.kv.rowVersions k)).map Prod.snd =
      final post none (sh.log.committedLog k) := by
  have hpend : sh.log.pend = [] := by
    rw [eq_nil_iff_forall_not_mem]
    intro e he
    have hopen := (h.pend_open e he).1
    rw [hrun] at hopen
    cases hopen
  have hlog : sh.log.committedLog k = sh.log.rowLog k := by
    simp [History.committedLog, History.rowLog, hpend]
  have hown : ∀ x, (none : Option Xid) = some x → x ∈ sh.pa.running := fun x hx => by cases hx
  have hall : ∀ a ∈ sh.log.chain k, Seen sh sh.pa.snapshot none a := by
    intro a ha
    have hf : sh.pa.Finished a := ⟨chain_lt h ha, by rw [hrun]; exact not_mem_nil⟩
    exact .inr ⟨ProcArray.canSee_snapshot.mpr hf, committed_of_finished h ha hf⟩
  rw [hlog]
  cases hfind : findVisibleOne sh.kv.clogGet sh.pa.snapshot none (sh.kv.rowVersions k) with
  | some =>
    obtain ⟨hlast, him⟩ := findVisibleOne_last h hown hall hfind
    rw [final_eq_image hlast, him]
    rfl
  | none =>
    cases hlast : (sh.log.chain k).getLast? with
    | none =>
      have hnil : sh.log.rowLog k = [] := by
        rw [List.getLast?_eq_none_iff] at hlast
        exact (authors_eq_nil xid).mp hlast
      rw [hnil]
      rfl
    | some a =>
      rw [final_eq_image hlast]
      cases him : sh.log.image k a with
      | none => rfl
      | some r =>
        -- the last version would be visible
        obtain ⟨m, hm, hd⟩ := (h.row k).live a r hlast him
        have hlive : isLive sh.kv.clogGet sh.pa.snapshot none (⟨a, m, r⟩ : Tuple Row) = true := by
          rw [isLive_iff, committedVisible_eq_seen]
          refine ⟨hall a (mem_of_getLast? hlast), ?_⟩
          rcases hd with hz | hdead
          · exact .inl hz
          · refine .inr ?_
            rw [Bool.eq_false_iff, ne_eq, committedVisible_eq_seen]
            exact not_seen_of_dead hown hdead
        have hsome := findVisibleOne_isSome sh.kv.clogGet sh.pa.snapshot none
          ((mem_rowVersions sh.kv).mpr ⟨a, hm⟩) hlive
        rw [hfind] at hsome
        cases hsome

end Quiescent

section Doomed

def Aborting (x : Xid) (u : Sess Row) : Prop :=
  (u.pc = .ready ∧ ∃ c, u.txn = .failed c ∧ c.xid = some x) ∨
    (∃ epoch, u.pc = .committing (.record x .aborted none) epoch (.close false)) ∨
    ∃ ack, u.pc = .finishing x ack

theorem Aborting.activeXid {u : Sess Row} (h : Aborting x u) : activeXid u = some x := by
  unfold Session.activeXid
  rcases h with ⟨hpc, c, htxn, hx⟩ | ⟨epoch, hpc⟩ | ⟨ack, hpc⟩
  · rw [hpc, htxn]
    exact hx
  · rw [hpc]
    rfl
  · rw [hpc]

theorem aborting_step {v v' : View Row} {a : Act Row} (h : Aborting x v.self)
    (hlt : x < v.pa.nextXid) (hadm : admits a = true) (hs : Session.step env v a = some v') :
    Aborting x v'.self ∨ v'.pa.Finished x := by
  have hfin : (v.pa.finish x).Finished x :=
    ⟨hlt, fun hm => (ProcArray.mem_running_finish.mp hm).2 rfl⟩
  rcases h with ⟨hpc, c, htxn, hx⟩ | ⟨epoch, hpc⟩ | ⟨ack, hpc⟩
  · -- a failed block: everything but its end is refused
    obtain ⟨kv, pa, lm, seq, txn, gx, pc, err⟩ := v
    obtain rfl : pc = .ready := hpc
    obtain rfl : txn = .failed c := htxn
    cases a with
    | begin | select | start =>
      cases hs
      exact .inl (.inl ⟨rfl, c, rfl, hx⟩)
    | commit | rollback =>
      cases hs
      refine .inl (.inr (.inl ⟨env.epoch, ?_⟩))
      simp only [abortCtx, hx]
    | drop =>
      simp only [Session.step, View.drop, TxnState.localXid, hx] at hs
      cases hs
      exact .inr hfin
    | join => cases hadm
    | _ => cases hs
  · obtain ⟨ok, rfl⟩ := eq_apply_of_committing hpc hs
    simp only [Session.step, View.apply, hpc] at hs
    cases hs
    exact .inl (.inr (.inr ⟨_, rfl⟩))
  · obtain rfl := eq_finish_of_finishing hpc hs
    simp only [Session.step, finish, hpc] at hs
    cases hs
    exact .inr hfin

/-- `x` has no commit record and will get none. -/
structure Doomed (x : Xid) (T : Tracked Row) : Prop where
  uncommitted : ¬ T.sh.Committed x
  ending : T.sh.pa.Finished x ∨ ∃ s, Aborting x (T.sessions s)

theorem doomed_step {T' : Tracked Row} {c : Call Row} (hI : Inv T) (h : Doomed x T)
    (hs : T.step c = some T') : Doomed x T' := by
  obtain ⟨s, a⟩ := c
  obtain ⟨hadm, v, hv, rfl⟩ := Tracked.step_cases hs
  refine ⟨?_, ?_⟩
  · change ¬ v.kv.clogGet x = .committed
    rcases clogGet_step hv x with hsame | ⟨b, epoch, after, rfl, hpc, hkv⟩
    · rw [hsame]
      exact h.uncommitted
    · have hpc' : (T.sessions s).pc = .committing b epoch after := hpc
      have hb : BatchInv T.sh (T.sessions s).txn b after := by
        have hp := (hI.sess s).pc
        rw [hpc'] at hp
        exact hp
      have hclog : (T.sh.write b).kv.clogGet x = _ := clogGet_write hb.seqOps hb.nextXid x
      have hkv' : v.kv = (T.sh.write b).kv := hkv
      rw [hkv', hclog]
      split_ifs with hbx
      · -- the batch of `x` itself, which records the abort
        have hact : activeXid (T.sessions s) = some x := by
          unfold activeXid
          rw [hpc', ← hbx]
        rcases h.ending with hfin | ⟨s', hab⟩
        · exact absurd hfin (not_finished_of_running ((hI.sess s).running x hact))
        · obtain rfl := hI.uniq s s' x hact hab.activeXid
          rcases hab with ⟨hr, -⟩ | ⟨epoch', hr⟩ | ⟨ack, hr⟩
          · rw [hr] at hpc'
            cases hpc'
          · rw [hr] at hpc'
            cases hpc'
            simp [Batch.record]
          · rw [hr] at hpc'
            cases hpc'
      · exact h.uncommitted
  · rcases h.ending with hfin | ⟨s', hab⟩
    · exact .inl (finished_step hv hfin)
    · by_cases hss : s' = s
      · subst hss
        have hlt := hI.shared.running_lt x ((hI.sess s').running x hab.activeXid)
        rcases aborting_step (v := T.view s') hab hlt hadm hv with hab' | hfin
        · refine .inr ⟨s', ?_⟩
          simpa [Tracked.set] using hab'
        · exact .inl hfin
      · refine .inr ⟨s', ?_⟩
        simpa [Tracked.set, Function.update_of_ne hss] using hab

theorem doomed_exec {T' : Tracked Row} {cs : List (Call Row)} (hI : Inv T) (h : Doomed x T)
    (he : Runs.exec Tracked.step T cs = some T') : ∀ e ∈ T'.sh.log.hist, e.xid ≠ x := by
  have hinv : Inv T' ∧ Doomed x T' :=
    exec_invariant (I := fun T => Inv T ∧ Doomed x T)
      (fun _ _ _ hd _ hs => ⟨inv_step hd.1 hs, doomed_step hd.1 hd.2 hs⟩) ⟨hI, h⟩
      (along_trivial (fun _ _ => trivial) _ cs) he
  intro e hmem hx
  exact hinv.2.uncommitted (hx ▸ hinv.1.shared.hist_committed e hmem)

end Doomed

theorem changedSince_of_hist {sh : Shared Row} (h : SharedInv sh) {S : Snapshot} {k : RowKey}
    (hT : Target sh S x k) {e : Entry Row} (he : e ∈ sh.log.hist) (hk : e.key = k) (hne : e.xid ≠ x)
    (hns : ¬ S.canSee e.xid) (glob : GlobalView) : changedSince sh.kv glob S k x = true := by
  have hmem : e.xid ∈ sh.log.chain k := by
    refine (mem_authors xid).mpr ⟨e, ?_, rfl⟩
    simp [History.rowLog, he, hk]
  obtain ⟨i, hi, hie⟩ := mem_iff_getElem.mp hmem
  cases i with
  | zero =>
    obtain ⟨b, hb, hbx⟩ := hT
    rw [head?_eq_getElem?, getElem?_eq_getElem hi, hie] at hb
    cases hb
    rcases hbx with hx | hs
    · exact absurd hx hne
    · exact absurd hs hns
  | succ i =>
    have hi' : i < (sh.log.chain k).length := by omega
    obtain ⟨r, -, hv⟩ := (h.row k).stamped i _ _ (getElem?_eq_getElem hi')
      (getElem?_eq_getElem hi)
    rw [hie] at hv
    exact changedSince_true h hv (chain_ne_zero h hmem) hne (h.hist_committed e he) hns

theorem recheck_serialization (hI : Inv T) {s : SessionId} {f : Frame Row} {r : RowId}
    (hpc : (T.sessions s).pc = .locked f r) (hrr : f.repeatableRead = true) {e : Entry Row}
    (he : e ∈ T.sh.log.hist) (hk : e.key = f.key r) (hne : e.xid ≠ f.xid)
    (hns : ¬ f.snapshot.canSee e.xid) : ∃ T' c, T.step (s, .recheck) = some T' ∧
      (T'.sessions s).err = some .serializationFailure ∧ (T'.sessions s).txn = .failed c ∧
      T'.sh = T.sh ∧ Doomed f.xid T' := by
  have hS := hI.sess s
  have hp := hS.pc
  rw [hpc] at hp
  obtain ⟨hf, -⟩ : FrameInv T.sh (T.sessions s).txn f (r :: f.todo.map Prod.fst) ∧ _ := hp
  have hchanged := changedSince_of_hist hI.shared (hf.target r (by simp)) he hk hne hns env.glob
  have heval : evalPlanQual T.sh.kv env.glob T.sh.pa f.snapshot (f.key r) f.xid f.repeatableRead =
      .error .serializationFailure := by
    simp [evalPlanQual, hchanged, hrr]
  have hblock := hf.block
  unfold Block at hblock
  cases hauto : f.autocommit with
  | true =>
    simp [hauto, hrr] at hblock
  | false =>
    simp only [hauto, Bool.false_eq_true, if_false] at hblock
    obtain ⟨c, htxn, hx, -⟩ := hblock
    have hactive : activeXid (T.sessions s) = some f.xid :=
      activeXid_of_frame (r := r) (.inr (.inr (.inr hpc)))
    have hundecided := hS.undecided f.xid hactive (by simp [isFinishing, hpc])
    have hstep : Session.step env (T.view s) .recheck =
        some ((T.view s).fail env f .serializationFailure) := by
      have hpc' : (T.view s).self.pc = .locked f r := hpc
      simp only [Session.step, recheck, hpc']
      rw [show evalPlanQual (T.view s).kv env.glob (T.view s).pa f.snapshot (f.key r) f.xid
        f.repeatableRead = .error .serializationFailure from heval]
    have hself : ((T.view s).fail env f .serializationFailure).self =
        ⟨.failed c, (T.sessions s).globalXid, .ready, some .serializationFailure⟩ := by
      have htxn' : (T.view s).self.txn = .inTransaction c := htxn
      simp only [fail, hauto, htxn', TxnState.fail]
      rfl
    have hself' : (Function.update T.sessions s
        ((T.view s).fail env f .serializationFailure).self) s =
        ⟨.failed c, (T.sessions s).globalXid, .ready, some .serializationFailure⟩ := by
      rw [Function.update_self, hself]
    refine ⟨T.set s ((T.view s).fail env f .serializationFailure) T.sh.log, c, ?_, ?_, ?_, ?_,
      ⟨?_, .inr ⟨s, .inl ?_⟩⟩⟩
    · simp only [Tracked.step, admits, hstep, if_true, Option.map_some]
      rfl
    · exact congrArg Sess.err hself'
    · exact congrArg Sess.txn hself'
    · rfl
    · change ¬ T.sh.kv.clogGet f.xid = .committed
      rw [hundecided]
      decide
    · exact ⟨congrArg Sess.pc hself', c, congrArg Sess.txn hself', hx⟩

/-- No lost update. In every reachable state: the committed changes of a row, in commit order, are
linked, and each is the statement's own function of its pre-image; a REPEATABLE READ statement
that has locked a row changed by a commit its snapshot does not see fails with a serialization
failure and its transaction never commits anything; and if after its first change a row was only
incremented, then once nothing runs its value is the first one plus the sum of the increments. -/
theorem no_lost_update {cs : List (Call Row)} {T : Tracked Row}
    (h : Runs.exec Tracked.step Tracked.initial cs = some T) :
    (∀ k, Chronicle.Linked pre post none (T.sh.log.committedLog k)) ∧
      (∀ e ∈ T.sh.log.hist, e.Valid) ∧
      (∀ s f r e, (T.sessions s).pc = .locked f r → f.repeatableRead = true →
        e ∈ T.sh.log.hist → e.key = f.key r → e.xid ≠ f.xid → ¬ f.snapshot.canSee e.xid →
        ∃ T' c, T.step (s, .recheck) = some T' ∧
          (T'.sessions s).err = some .serializationFailure ∧ (T'.sessions s).txn = .failed c ∧
          T'.sh = T.sh ∧
          ∀ cs' T'', Runs.exec Tracked.step T' cs' = some T'' →
            ∀ e' ∈ T''.sh.log.hist, e'.xid ≠ f.xid) ∧
      (∀ (val : Row → ℤ) (delta : Entry Row → ℤ) k first rest r₀,
        T.sh.log.committedLog k = first :: rest → first.post = some r₀ →
        (∀ e ∈ rest, ∃ t filter set, e.work = .update t filter set ∧
          ∀ r r', set r = .ok r' → val r' = val r + delta e) →
        T.sh.pa.running = [] →
        ∃ v, findVisibleOne (globalStatus T.sh.kv env.glob noGlobalSnapshot) T.sh.pa.snapshot none
            (T.sh.kv.rowVersions k) = some v ∧ val v.2 = val r₀ + (rest.map delta).sum) := by
  have hI := inv_exec h
  refine ⟨committedLog_linked hI, ?_, ?_, ?_⟩
  · intro e he
    exact hI.shared.valid e (mem_append_left _ he)
  · intro s f r e hpc hrr he hk hne hns
    obtain ⟨T', c, hstep, herr, htxn, hsh, hdoom⟩ :=
      recheck_serialization hI hpc hrr he hk hne hns
    exact ⟨T', c, hstep, herr, htxn, hsh,
      fun cs' T'' hrun => doomed_exec (inv_step hI hstep) hdoom hrun⟩
  · intro val delta k first rest r₀ hlog hfirst hrest hrun
    have hlinked := committedLog_linked hI k
    rw [hlog] at hlinked
    have hlinked' : Linked pre post (some r₀) rest := hfirst ▸ hlinked.2
    have hincr : ∀ e ∈ rest, ∀ v, e.pre = some v →
        ∃ v', e.post = some v' ∧ val v' = val v + delta e := by
      intro e he v hpre
      obtain ⟨t, flt, set, hw, hset⟩ := hrest e he
      have hmem : e ∈ T.sh.log.hist := by
        have hin : e ∈ T.sh.log.committedLog k := by
          rw [hlog]
          exact mem_cons_of_mem _ he
        exact (mem_filter.mp hin).1
      have hvalid := hI.shared.valid e (mem_append_left _ hmem)
      obtain ⟨x, w, c⟩ := e
      change w = .update t flt set at hw
      subst hw
      cases c with
      | insert | delete => exact hvalid.elim
      | update key cx cur next =>
        have hcur : cur = v := Option.some.inj hpre
        subst hcur
        exact ⟨next, rfl, hset cur next hvalid⟩
    obtain ⟨b, hb, hval⟩ := linked_sum hlinked' hincr
    have hread := findVisibleOne_quiescent hI.shared hrun k
    rw [hlog] at hread
    simp only [final, hfirst, hb] at hread
    rw [Option.map_eq_some_iff] at hread
    obtain ⟨v, hv, rfl⟩ := hread
    exact ⟨v, by rw [globalStatus_eq hI.shared]; exact hv, hval⟩

/-- Session 1 scans under REPEATABLE READ, session 2 updates the row and commits, session 1 gets
the row's lock. -/
def staleTargetRun : List (Call ℕ) :=
  autocommit 0 insertTen [] ++
    [(1, .begin true), (1, .start addOne), (1, .takeSnapshot), (1, .scan), (1, .next)] ++
    autocommit 2 addOne [.next, .acquire 0, .recheck] ++ [(1, .acquire 0)]

/-- The xid of session `s` if it has locked a row that a commit outside its snapshot changed. -/
def staleTarget (s : SessionId) (T : Tracked ℕ) : Option Xid :=
  match (T.sessions s).pc with
  | .locked f r =>
    if f.repeatableRead = true ∧ ∃ e ∈ T.sh.log.hist,
        e.key = f.key r ∧ e.xid ≠ f.xid ∧ ¬ f.snapshot.canSee e.xid then some f.xid
    else none
  | _ => none

theorem no_lost_update_stale_target :
    ∃ T T' : Tracked ℕ, Runs.exec Tracked.step Tracked.initial staleTargetRun = some T ∧
      T.step (1, .recheck) = some T' ∧
      (T'.sessions 1).err = some .serializationFailure ∧
      ∀ cs' T'', Runs.exec Tracked.step T' cs' = some T'' →
        ∀ e' ∈ T''.sh.log.hist, e'.xid ≠ 2 := by
  have h : (Runs.exec Tracked.step Tracked.initial staleTargetRun).bind (staleTarget 1) =
      some 2 := by decide
  obtain ⟨T, hT, hx⟩ := Option.bind_eq_some_iff.mp h
  unfold staleTarget at hx
  split at hx
  · rename_i f r hpc
    split_ifs at hx with hcond
    obtain ⟨hrr, e, he, hk, hne, hns⟩ := hcond
    obtain ⟨T', c, hstep, herr, -, -, hlater⟩ :=
      (no_lost_update hT).2.2.1 1 f r e hpc hrr he hk hne hns
    exact ⟨T, T', hT, hstep, herr, Option.some.inj hx ▸ hlater⟩
  · cases hx

end Crabgresql.Single
