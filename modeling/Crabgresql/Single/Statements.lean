import Crabgresql.Single.Write

/-!
# Steps that leave the shared state alone

Transaction control, snapshots, scans of locking statements, filters, rechecks
and proposals change only the session that takes them.
-/

namespace Crabgresql.Single

open Mvcc Kv Procarray Lockmgr Exec Session Engine View

variable {Row : Type}
variable {T : Tracked Row} {s : SessionId} {e : Option ExecError} {v : View Row} {x : Xid}
  {txn : TxnState}

theorem evolve_refl (x : Xid) (sh : Shared Row) : Evolve x [] sh sh :=
  ⟨fun _ h => h, fun _ _ h => h, fun _ _ => rfl, fun _ h => h, fun _ _ _ h => h,
    fun _ => le_rfl, fun _ => .same rfl fun _ => rfl⟩

theorem activeXid_ne_next (h : Inv T) (s : SessionId) :
    activeXid (T.sessions s) ≠ some T.sh.pa.nextXid := by
  intro hx
  exact lt_irrefl _ (h.shared.running_lt _ ((h.sess s).running _ hx))

/-- A step of session `s` that changes nothing shared, keeps the session's xid and adds no
pending insert. -/
theorem Inv.quiet (h : Inv T) (s : SessionId) {self : Sess Row} (hself : SessInv T.sh self)
    (hactive : ∀ y, activeXid self = some y → activeXid (T.sessions s) = some y)
    (hpend : ∀ k ∈ insertKeys (pendingChanges self),
      k ∈ insertKeys (pendingChanges (T.sessions s))) :
    Inv (T.set s { T.view s with self := self } T.sh.log) := by
  refine h.step_of s T.sh.pa.nextXid [] h.shared (evolve_refl _ _) ?_ ?_ hself ?_ ?_
  · intro s' _
    exact activeXid_ne_next h s'
  · intro s' _ k hk
    cases hk
  · intro s' hs y hy hy'
    exact hs (h.uniq s' s y hy' (hactive y hy))
  · intro s' hs k hk hk'
    exact hs (h.apart s' s k hk' (hpend k hk))

section Control

variable {sh : Shared Row} {u : Sess Row}

theorem SessInv.withErr (h : SessInv sh u) (e : Option ExecError) :
    SessInv sh { u with err := e } :=
  ⟨h.global, h.running, h.undecided, h.block, h.pc⟩

theorem sessInv_idle : SessInv sh (⟨.idle, none, .ready, e⟩ : Sess Row) := by
  refine ⟨rfl, ?_, ?_, ?_, trivial⟩
  · intro x hx
    cases hx
  · intro x hx
    cases hx
  · rintro c (hc | hc)
    · cases hc
    · cases hc

theorem changesInv_nil {cover : Option Snapshot} {w : Work Row} : ChangesInv sh x cover w [] :=
  ⟨by simp, by simp, by simp⟩

theorem sessInv_record {st : XidStatus} {ack : Bool} {epoch : ℕ}
    (hst : st = .committed ∨ st = .aborted) (hrun : x ∈ sh.pa.running)
    (hx : sh.kv.clogGet x = .inProgress) :
    SessInv sh (⟨.idle, none, .committing (.record x st none) epoch (.close ack), e⟩ :
      Sess Row) := by
  refine ⟨rfl, ?_, ?_, ?_, ?_⟩
  · rintro y hy
    cases hy
    exact hrun
  · rintro y hy _
    cases hy
    exact hx
  · rintro c (hc | hc)
    · cases hc
    · cases hc
  · refine ⟨rfl, rfl, rfl, ?_, changesInv_nil⟩
    rcases hst with rfl | rfl
    · exact .inl rfl
    · exact .inr ⟨rfl, rfl⟩

theorem sessInv_ready
    (hxid : ∀ x, txn.localXid = some x → x ∈ sh.pa.running ∧ sh.kv.clogGet x = .inProgress)
    (hblock : ∀ c, txn = .inTransaction c ∨ txn = .failed c → c.repeatableRead = true →
      ViewInv sh c.snapshot c.xid) :
    SessInv sh (⟨txn, none, .ready, e⟩ : Sess Row) :=
  ⟨rfl, fun x hx => (hxid x hx).1, fun x hx _ => (hxid x hx).2, hblock, trivial⟩

theorem SessInv.localXid {g : Option Xid} (h : SessInv sh (⟨txn, g, .ready, e⟩ : Sess Row))
    (hx : txn.localXid = some x) : x ∈ sh.pa.running ∧ sh.kv.clogGet x = .inProgress :=
  ⟨h.running x hx, h.undecided x hx rfl⟩

end Control

theorem inv_begin (h : Inv T) {rr : Bool} (hv : (T.view s).begin env rr = some v) :
    Inv (T.set s v T.sh.log) := by
  have hS := h.sess s
  rcases hu : T.sessions s with ⟨txn, g, pc, err⟩
  simp only [begin, Tracked.view, hu] at hv
  rw [hu] at hS
  obtain rfl : g = none := hS.global
  split at hv
  · cases hv
    refine h.quiet s (sessInv_ready ?_ ?_) ?_ ?_
    · intro x hx
      cases hx
    · rintro c (hc | hc) _
      · cases hc
        exact viewInv_snapshot h.shared fun x hx => by cases hx
      · cases hc
    · intro y hy
      cases hy
    · intro k hk
      cases hk
  · cases hv
    exact h.quiet s (hS.withErr none) (fun _ hy => hu ▸ hy) (fun _ hk => hu ▸ hk)
  · cases hv
    exact h.quiet s (hS.withErr _) (fun _ hy => hu ▸ hy) (fun _ hk => hu ▸ hk)
  · cases hv

theorem inv_select (h : Inv T) (hv : (T.view s).select = some v) : Inv (T.set s v T.sh.log) := by
  have hS := h.sess s
  rcases hu : T.sessions s with ⟨txn, g, pc, err⟩
  simp only [select, Tracked.view, hu] at hv
  rw [hu] at hS
  obtain rfl : g = none := hS.global
  split at hv
  · cases hv
    exact h.quiet s (hS.withErr none) (fun _ hy => hu ▸ hy) (fun _ hk => hu ▸ hk)
  · rename_i c
    cases hv
    have hxid : (if c.repeatableRead then c else { c with snapshot := T.sh.pa.snapshot }).xid =
        c.xid := by
      split_ifs <;> rfl
    refine h.quiet s (sessInv_ready ?_ ?_) ?_ ?_
    · intro x hx
      exact hS.localXid (hxid ▸ hx : c.xid = some x)
    · rintro c' (hc | hc) hrr
      · cases hc
        by_cases hc' : c.repeatableRead = true
        · simp only [hc', if_true]
          exact hS.block c (.inl rfl) hc'
        · simp only [if_neg hc'] at hrr
          exact absurd hrr hc'
      · cases hc
    · intro y hy
      rw [hu]
      exact (hxid ▸ hy : c.xid = some y)
    · intro k hk
      cases hk
  · cases hv
    exact h.quiet s (hS.withErr _) (fun _ hy => hu ▸ hy) (fun _ hk => hu ▸ hk)
  · cases hv

theorem inv_end (h : Inv T) {st : XidStatus} {ack : Bool} {epoch : ℕ}
    (hu : T.sessions s = ⟨txn, none, .ready, e⟩) (hst : st = .committed ∨ st = .aborted) :
    Inv (T.set s { T.view s with
      self := ⟨.idle, none,
        match txn.localXid with
        | some x => .committing (.record x st none) epoch (.close ack)
        | none => .ready, none⟩ } T.sh.log) := by
  have hS := h.sess s
  rw [hu] at hS
  cases hx : txn.localXid with
  | none =>
    refine h.quiet s sessInv_idle ?_ ?_
    · intro y hy
      cases hy
    · intro k hk
      cases hk
  | some =>
    obtain ⟨hrun, hclog⟩ := hS.localXid hx
    refine h.quiet s (sessInv_record hst hrun hclog) ?_ ?_
    · intro y hy
      cases hy
      rw [hu]
      exact hx
    · intro k hk
      cases hk

theorem inv_commit (h : Inv T) (hv : (T.view s).commit env = some v) :
    Inv (T.set s v T.sh.log) := by
  have hS := h.sess s
  rcases hu : T.sessions s with ⟨txn, g, pc, err⟩
  simp only [commit, abortCtx, Tracked.view, hu] at hv
  rw [hu] at hS
  obtain rfl : g = none := hS.global
  split at hv
  · cases hv
    exact h.quiet s (hS.withErr none) (fun _ hy => hu ▸ hy) (fun _ hk => hu ▸ hk)
  · cases hv
    exact inv_end h hu (.inl rfl)
  · cases hv
    exact inv_end h hu (.inr rfl)
  · cases hv

theorem inv_rollback (h : Inv T) (hv : (T.view s).rollback env = some v) :
    Inv (T.set s v T.sh.log) := by
  have hS := h.sess s
  rcases hu : T.sessions s with ⟨txn, g, pc, err⟩
  simp only [rollback, abortCtx, Tracked.view, hu] at hv
  rw [hu] at hS
  obtain rfl : g = none := hS.global
  split at hv
  · cases hv
    exact h.quiet s (hS.withErr none) (fun _ hy => hu ▸ hy) (fun _ hk => hu ▸ hk)
  · cases hv
    exact inv_end h hu (.inr rfl)
  · cases hv
    exact inv_end h hu (.inr rfl)
  · cases hv

theorem sessInv_running {sh : Shared Row} {pc : Pc Row}
    (hactive : activeXid (⟨txn, none, pc, e⟩ : Sess Row) = some x)
    (hxid : x ∈ sh.pa.running ∧ sh.kv.clogGet x = .inProgress)
    (hblock : ∀ c, txn = .inTransaction c ∨ txn = .failed c → c.repeatableRead = true →
      ViewInv sh c.snapshot c.xid)
    (hpc : PcInv sh txn pc) : SessInv sh (⟨txn, none, pc, e⟩ : Sess Row) := by
  refine ⟨rfl, ?_, ?_, hblock, hpc⟩
  · intro y hy
    rw [hactive] at hy
    cases hy
    exact hxid.1
  · intro y hy _
    rw [hactive] at hy
    cases hy
    exact hxid.2

theorem inv_takeSnapshot (h : Inv T) (hv : (T.view s).takeSnapshot env = some v) :
    Inv (T.set s v T.sh.log) := by
  have hS := h.sess s
  rcases hu : T.sessions s with ⟨txn, g, pc, err⟩
  simp only [takeSnapshot, setPc, Tracked.view, hu] at hv
  rw [hu] at hS
  obtain rfl : g = none := hS.global
  split at hv
  · rename_i w x
    cases hv
    have hidle : txn = .idle := by simpa [PcInv] using hS.pc
    have hrun := hS.running x rfl
    refine h.quiet s (sessInv_running rfl ⟨hrun, hS.undecided x rfl rfl⟩ hS.block ?_) ?_ ?_
    · refine ⟨⟨viewInv_snapshot h.shared ?_, ⟨hidle, rfl⟩, rfl, by simp, List.nodup_nil, by simp,
        changesInv_nil⟩, rfl, rfl⟩
      intro y hy
      cases hy
      exact hrun
    · intro y hy
      rw [hu]
      exact hy
    · intro k hk
      cases hk
  · rename_i w x c
    cases hv
    have hrun := hS.running x rfl
    have hx : c.xid = some x := by simpa [PcInv] using hS.pc
    have hblock : ∀ c', TxnState.inTransaction
        (if c.repeatableRead then c else { c with snapshot := T.sh.pa.snapshot }) =
          .inTransaction c' ∨
        TxnState.inTransaction
        (if c.repeatableRead then c else { c with snapshot := T.sh.pa.snapshot }) = .failed c' →
        c'.repeatableRead = true → ViewInv T.sh c'.snapshot c'.xid := by
      rintro c' (hc | hc) hrr
      · cases hc
        by_cases hc' : c.repeatableRead = true
        · simp only [hc', if_true]
          exact hS.block c (.inl rfl) hc'
        · simp only [if_neg hc'] at hrr
          exact absurd hrr hc'
      · cases hc
    refine h.quiet s (sessInv_running rfl ⟨hrun, hS.undecided x rfl rfl⟩ hblock ?_) ?_ ?_
    · refine ⟨⟨?_, ⟨_, rfl, ?_, ?_, rfl⟩, rfl, by simp, List.nodup_nil, by simp, changesInv_nil⟩,
        rfl, rfl⟩
      · cases hrr : c.repeatableRead with
        | true =>
          have hview := hS.block c (.inl rfl) hrr
          rw [hx] at hview
          simpa [hrr] using hview
        | false =>
          simp only [Bool.false_eq_true, if_false]
          refine viewInv_snapshot h.shared ?_
          intro y hy
          cases hy
          exact hrun
      · split_ifs <;> exact hx
      · split_ifs <;> rfl
    · intro y hy
      rw [hu]
      exact hy
    · intro k hk
      cases hk
  · cases hv

theorem sessInv_fail {sh : Shared Row} {f : Frame Row} {e : ExecError} {S : Snapshot} {rr : Bool}
    (hg : v.self.globalXid = none) (hblock : Block v.self.txn f.xid f.autocommit rr S)
    (hrr : ∀ c, v.self.txn = .inTransaction c ∨ v.self.txn = .failed c → c.repeatableRead = true →
      ViewInv sh c.snapshot c.xid)
    (hxid : f.xid ∈ sh.pa.running ∧ sh.kv.clogGet f.xid = .inProgress) :
    SessInv sh (v.fail env f e).self ∧ activeXid (v.fail env f e).self = some f.xid ∧
      pendingChanges (v.fail env f e).self = [] := by
  rcases hself : v.self with ⟨txn, g, pc, err⟩
  rw [hself] at hg hblock hrr
  obtain rfl : g = none := hg
  unfold Block at hblock
  cases hauto : f.autocommit with
  | true =>
    simp only [hauto, if_true] at hblock
    obtain ⟨rfl, -⟩ := hblock
    cases hw : f.work.isWrite with
    | true =>
      simp only [fail, hself, hauto, hw, if_true, TxnState.fail]
      exact ⟨sessInv_record (.inr rfl) hxid.1 hxid.2, rfl, rfl⟩
    | false =>
      simp only [fail, hself, hauto, hw, if_true, TxnState.fail]
      refine ⟨⟨rfl, ?_, ?_, ?_, rfl⟩, rfl, rfl⟩
      · intro y hy
        cases hy
        exact hxid.1
      · intro y _ hf
        cases hf
      · rintro c (hc | hc)
        · cases hc
        · cases hc
  | false =>
    simp only [hauto, Bool.false_eq_true, if_false] at hblock
    obtain ⟨c, rfl, hx, -⟩ := hblock
    simp only [fail, hself, hauto, Bool.false_eq_true, if_false, TxnState.fail]
    refine ⟨sessInv_ready ?_ ?_, hx, rfl⟩
    · intro y hy
      have hy' : some y = some f.xid := (hy.symm.trans hx :)
      cases hy'
      exact hxid
    · rintro c' (hc | hc) hc'
      · cases hc
      · cases hc
        exact hrr c (.inl rfl) hc'

theorem notMem_insertKeys {u : Sess Row} (h : pendingChanges u = []) {k : RowKey} :
    k ∉ insertKeys (pendingChanges u) := by
  rw [h]
  exact List.not_mem_nil

theorem inv_fail (h : Inv T) {f : Frame Row} {e : ExecError} {ts : List RowId}
    (hf : FrameInv T.sh (T.sessions s).txn f ts) (hactive : activeXid (T.sessions s) = some f.xid)
    (hfin : isFinishing (T.sessions s) = false) :
    Inv (T.set s ((T.view s).fail env f e) T.sh.log) := by
  have hS := h.sess s
  obtain ⟨hself, hact, hpend⟩ : SessInv T.sh ((T.view s).fail env f e).self ∧ _ ∧ _ :=
    sessInv_fail hS.global hf.block hS.block
      ⟨hS.running _ hactive, hS.undecided _ hactive hfin⟩
  refine h.quiet s hself ?_ ?_
  · intro y hy
    rw [hactive]
    exact hact.symm.trans hy
  · intro k hk
    exact absurd hk (notMem_insertKeys hpend)

end Crabgresql.Single
