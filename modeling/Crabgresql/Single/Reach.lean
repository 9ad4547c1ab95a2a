import Crabgresql.Single.Commit

/-!
# The invariant holds in every reachable state
-/

namespace Crabgresql.Single

open Mvcc Kv Procarray Lockmgr Exec Session Engine List Tracked ProcArray

variable {Row : Type}
variable {T : Tracked Row} {s : SessionId} {v : View Row}

def Shared.finish (sh : Shared Row) (x : Xid) : Shared Row :=
  { sh with pa := sh.pa.finish x, log := sh.log.discard x }

section Finish

variable {sh : Shared Row} {x : Xid}

theorem finished_finish {y : Xid} (h : sh.pa.Finished y) : (sh.finish x).pa.Finished y :=
  ⟨h.1, fun hm => h.2 (mem_running_finish.mp hm).1⟩

theorem rowLog_finish_same {k : RowKey} (hx : ∀ e ∈ sh.log.pend, e.key = k → e.xid ≠ x) :
    (sh.finish x).log.rowLog k = sh.log.rowLog k := by
  change (sh.log.discard x).rowLog k = _
  simp only [History.rowLog, History.discard, filter_append]
  congr 1
  rw [List.filter_filter]
  apply filter_congr
  intro e he
  by_cases hk : e.key = k
  · simp [hk, hx e he hk]
  · simp [hk]

theorem rowLog_finish_strike (h : SharedInv sh) (hx : ¬ sh.Committed x) (k : RowKey) :
    (sh.finish x).log.rowLog k = (sh.log.rowLog k).filter fun e => e.xid ≠ x := by
  change (sh.log.discard x).rowLog k = _
  simp only [History.rowLog, History.discard, filter_append]
  congr 1
  · symm
    rw [filter_eq_self]
    intro e he
    have hne : e.xid ≠ x := by
      rintro rfl
      exact hx (h.hist_committed e (mem_filter.mp he).1)
    simpa using hne
  · rw [List.filter_filter, List.filter_filter]
    apply filter_congr
    intro e _
    rw [Bool.and_comm]

theorem rowStep_finish (h : SharedInv sh) (hrun : x ∈ sh.pa.running) (k : RowKey) :
    RowStep x [] sh (sh.finish x) k ∧ RowInv (sh.finish x) k := by
  have hdead : ∀ y, sh.Dead y → (sh.finish x).Dead y :=
    fun y hd => ⟨finished_finish hd.1, hd.2⟩
  have hset : ∀ y, sh.Committed y ∧ sh.pa.Finished y →
      (sh.finish x).Committed y ∧ (sh.finish x).pa.Finished y :=
    fun y hs => ⟨hs.1, finished_finish hs.2⟩
  have hguard : ∀ y ∈ sh.log.chain k, y ∈ (sh.finish x).pa.running → y ∈ sh.pa.running ∧
      (sh.lm.HoldsExclusive k y → (sh.finish x).lm.HoldsExclusive k y) :=
    fun y _ hr => ⟨(mem_running_finish.mp hr).1, id⟩
  by_cases hx : ∀ e ∈ sh.log.pend, e.key = k → e.xid ≠ x
  · have hlog := rowLog_finish_same hx
    exact ⟨.same hlog fun _ => rfl, (h.row k).mono hlog (fun _ => rfl) hdead hset hguard⟩
  · push Not at hx
    obtain ⟨e, he, hk, hex⟩ := hx
    have hncom : ¬ sh.Committed x := hex ▸ (h.pend_open e he).2
    have hmem : x ∈ sh.log.chain k := by
      rw [← hex, ← hk]
      exact mem_chain_of_pend he
    have hlast := last_of_running (h.row k) hmem hrun
    have hlog := rowLog_finish_strike h hncom k
    refine ⟨.strike hlog hrun hlast fun _ => rfl, ?_⟩
    refine (h.row k).strike hrun hlast hlog (fun _ => rfl) hdead ⟨⟨?_, ?_⟩, hncom⟩ hset
    · exact h.running_lt x hrun
    · intro hm
      exact (mem_running_finish.mp hm).2 rfl

theorem evolve_finish (h : SharedInv sh) (hrun : x ∈ sh.pa.running) :
    Evolve x [] sh (sh.finish x) where
  finished _ := finished_finish
  running _ hy hr := mem_running_finish.mpr ⟨hr, hy⟩
  clog _ _ := rfl
  committed _ hy := hy
  lock _ _ _ hl := hl
  rowid _ := le_rfl
  row k := (rowStep_finish h hrun k).1

theorem mem_log_finish {e : Entry Row} (he : e ∈ (sh.finish x).log.hist ++ (sh.finish x).log.pend) :
    e ∈ sh.log.hist ++ sh.log.pend := by
  rcases mem_append.mp he with hh | hp
  · exact mem_append_left _ hh
  · exact mem_append_right _ (mem_filter.mp hp).1

theorem sharedInv_finish (h : SharedInv sh) (hrun : x ∈ sh.pa.running) :
    SharedInv (sh.finish x) where
  next_pos := h.next_pos
  zero := ⟨fun hm => h.zero.1 (mem_running_finish.mp hm).1, h.zero.2⟩
  running_lt y hy := h.running_lt y (mem_running_finish.mp hy).1
  clog_lt := h.clog_lt
  unprepared := h.unprepared
  sole := h.sole
  row k := (rowStep_finish h hrun k).2
  hist_committed := h.hist_committed
  pend_open e he := by
    obtain ⟨hmem, hne⟩ := mem_filter.mp he
    have hopen := h.pend_open e hmem
    exact ⟨mem_running_finish.mpr ⟨hopen.1, by simpa using hne⟩, hopen.2⟩
  rowid_lt := h.rowid_lt
  key_lt e he := h.key_lt e (mem_log_finish he)
  valid e he := h.valid e (mem_log_finish he)

end Finish

theorem inv_deregister (h : Inv T) {x : Xid} {self : Sess Row}
    (hact : activeXid (T.sessions s) = some x) (hself : SessInv (T.sh.finish x) self)
    (hnone : activeXid self = none) (hpend : pendingChanges self = []) :
    Inv (⟨T.sh.finish x, Function.update T.sessions s self⟩ : Tracked Row) := by
  have hrun := (h.sess s).running x hact
  refine h.step_own hact (sharedInv_finish h.shared hrun) (evolve_finish h.shared hrun) nofun hself
    (fun y hy => ?_) fun k hk => absurd hk (notMem_insertKeys hpend)
  rw [hnone] at hy
  cases hy

theorem inv_unlock (h : Inv T) {x : Xid} {e : Option ExecError} (hfin : T.sh.pa.Finished x) :
    Inv (⟨{ T.sh with lm := T.sh.lm.releaseAll x },
      Function.update T.sessions s ⟨.idle, none, .ready, e⟩⟩ : Tracked Row) := by
  have hkept : ∀ k, ∀ y ∈ T.sh.pa.running, T.sh.lm.HoldsExclusive k y →
      (T.sh.lm.releaseAll x).HoldsExclusive k y := by
    intro k y hr
    refine LockMgr.releaseAll_holdsExclusive ?_
    rintro rfl
    exact not_finished_of_running hr hfin
  refine h.step_of s x [] (sharedInv_locks h.shared (LockMgr.releaseAll_sole h.shared.sole) hkept)
    (evolve_locks fun _ _ => LockMgr.releaseAll_holdsExclusive) ?_ nofun sessInv_idle nofun nofun
  intro s' _ hact
  exact not_finished_of_running ((h.sess s').running x hact) hfin

theorem inv_finish (h : Inv T) (hv : (T.view s).finish = some v) :
    Inv (T.set s v (T.sh.log.after (T.sessions s) .finish)) := by
  have hS := h.sess s
  rcases hu : T.sessions s with ⟨txn, g, pc, err⟩
  simp only [View.finish, View.setPc, view, hu] at hv
  simp only [History.after]
  rw [hu] at hS
  obtain rfl : g = none := hS.global
  split at hv
  · exact hS.pc.elim
  · rename_i x ack
    cases hv
    have hrun := hS.running x rfl
    obtain rfl : txn = .idle := hS.pc
    refine inv_deregister h (by rw [hu]; rfl) ⟨rfl, ?_, ?_, ?_, rfl, ?_⟩ rfl rfl
    · intro y hy
      cases hy
    · intro y hy
      cases hy
    · rintro c (hc | hc)
      · cases hc
      · cases hc
    · exact ⟨h.shared.running_lt x hrun, fun hm => (mem_running_finish.mp hm).2 rfl⟩
  · cases hv

theorem inv_release (h : Inv T) (hv : (T.view s).release = some v) : Inv (T.set s v T.sh.log) := by
  have hS := h.sess s
  rcases hu : T.sessions s with ⟨txn, g, pc, err⟩
  simp only [View.release, View.setPc, view, hu] at hv
  rw [hu] at hS
  obtain rfl : g = none := hS.global
  split at hv
  · rename_i x ack
    cases hv
    obtain ⟨rfl, hfin⟩ : txn = .idle ∧ T.sh.pa.Finished x := hS.pc
    exact inv_unlock h hfin
  · cases hv

theorem inv_drop (h : Inv T) (hv : (T.view s).drop = some v) :
    Inv (T.set s v (T.sh.log.after (T.sessions s) .drop)) := by
  have hS := h.sess s
  rcases hu : T.sessions s with ⟨txn, g, pc, err⟩
  simp only [View.drop, view, hu] at hv
  simp only [History.after]
  rw [hu] at hS
  obtain rfl : g = none := hS.global
  split at hv
  · cases hx : txn.localXid with
    | none =>
      simp only [hx] at hv
      cases hv
      exact h.quiet s sessInv_idle (fun y hy => by cases hy) (fun k hk => by cases hk)
    | some x =>
      simp only [hx] at hv
      cases hv
      have hrun := (hS.localXid hx).1
      have hfin : (T.sh.finish x).pa.Finished x :=
        ⟨h.shared.running_lt x hrun, fun hm => (mem_running_finish.mp hm).2 rfl⟩
      -- dropping is deregistration followed by the release
      have hmid : Inv (⟨T.sh.finish x, Function.update T.sessions s
          ⟨.idle, none, .releasing x false, err⟩⟩ : Tracked Row) := by
        refine inv_deregister h (by rw [hu]; exact hx) ⟨rfl, ?_, ?_, ?_, rfl, hfin⟩ rfl rfl
        · intro y hy
          cases hy
        · intro y hy
          cases hy
        · rintro c (hc | hc)
          · cases hc
          · cases hc
      have hend := inv_unlock hmid (s := s) (e := err) hfin
      simp only [Function.update_idem] at hend
      exact hend
  · cases hv

theorem inv_step {T' : Tracked Row} {c : Call Row} (h : Inv T) (hs : T.step c = some T') :
    Inv T' := by
  obtain ⟨s, a⟩ := c
  obtain ⟨hadm, v, hv, rfl⟩ := step_cases hs
  cases a with
  | begin => exact inv_begin h hv
  | select => exact inv_select h hv
  | commit => exact inv_commit h hv
  | rollback => exact inv_rollback h hv
  | start => exact inv_start h hv
  | takeSnapshot => exact inv_takeSnapshot h hv
  | scan => exact inv_scan h hv
  | next => exact inv_next h hv
  | acquire => exact inv_acquire h hv
  | recheck => exact inv_recheck h hv
  | propose => exact inv_propose h hv
  | apply ok =>
    obtain rfl : ok = true := hadm
    exact inv_apply h hv
  | finish => exact inv_finish h hv
  | release => exact inv_release h hv
  | join => cases hadm
  | drop => exact inv_drop h hv

theorem selectFails_cases {v' : View Row} (h : v.selectFails = some v') :
    v.self.pc = .ready ∧ ∃ txn e, v' =
    { v with self := { v.self with txn := txn, err := some e } } ∧
      (txn = .idle ∧ v.self.txn = .idle ∨
        ∃ c c₀, txn = .failed c ∧ (v.self.txn = .inTransaction c₀ ∨ v.self.txn = .failed c₀) ∧
          c.xid = c₀.xid ∧ (c.repeatableRead = true → c = c₀)) := by
  obtain ⟨kv, pa, lm, seq, txn, gx, pc, err⟩ := v
  simp only [View.selectFails, View.select] at h
  split at h
  · cases h
    exact ⟨rfl, _, _, rfl, .inl ⟨rfl, rfl⟩⟩
  · rename_i c
    cases h
    refine ⟨rfl, _, _, rfl, .inr ⟨_, c, rfl, .inl rfl, ?_, ?_⟩⟩
    · split_ifs <;> rfl
    · split_ifs with hrr
      · exact fun _ => rfl
      · exact fun hrr' => absurd hrr' hrr
  · rename_i c
    cases h
    exact ⟨rfl, _, _, rfl, .inr ⟨c, c, rfl, .inr rfl, rfl, fun _ => rfl⟩⟩
  · cases h

theorem inv_selectFails (h : Inv T) (hv : (T.view s).selectFails = some v) :
    Inv (T.set s v T.sh.log) := by
  have hS := h.sess s
  obtain ⟨hpc, txn', e, rfl, hcase⟩ := selectFails_cases hv
  rcases hu : T.sessions s with ⟨txn, g, pc, err⟩
  simp only [view, hu] at hpc hcase ⊢
  rw [hu] at hS
  subst hpc
  obtain rfl : g = none := hS.global
  have hlocal : txn'.localXid = txn.localXid := by
    rcases hcase with ⟨rfl, rfl⟩ | ⟨c, c₀, rfl, rfl | rfl, hx, -⟩
    · rfl
    · exact hx
    · exact hx
  refine h.quiet s (sessInv_ready ?_ ?_) ?_ ?_
  · intro x hx
    exact hS.localXid (hlocal ▸ hx)
  · rintro c hc hrr
    rcases hcase with ⟨rfl, -⟩ | ⟨c', c₀, rfl, hc₀, -, hsame⟩
    · rcases hc with hc | hc <;> cases hc
    · rcases hc with hc | hc <;> cases hc
      obtain rfl := hsame hrr
      exact hS.block c hc₀ hrr
  · intro y hy
    rw [hu]
    exact hlocal.symm.trans hy
  · intro k hk
    cases hk

theorem inv_event {T' : Tracked Row} {e : Event Row} (h : Inv T) (hs : T.event e = some T') :
    Inv T' := by
  cases e with
  | call => exact inv_step h hs
  | readError =>
    obtain ⟨v, hv, rfl⟩ := Option.map_eq_some_iff.mp hs
    exact inv_selectFails h hv

theorem inv_initial : Inv (Tracked.initial : Tracked Row) where
  shared := by
    refine ⟨Nat.one_pos, ⟨not_mem_nil, clogGet_empty _⟩, ?_, ?_, ?_, LockMgr.sole_new, ?_, ?_,
      ?_, ?_, ?_, ?_⟩
    · intro x hx
      cases hx
    · intro x hx
      exact absurd (clogGet_empty x) hx
    · intro x g hx
      rw [show Tracked.initial.sh.kv.clogGet x = .inProgress from clogGet_empty x] at hx
      cases hx
    · intro k
      refine ⟨nodup_nil, trivial, ?_, ?_, ?_, ?_, ?_, ?_⟩
      · intro x t ht
        rw [show Tracked.initial.sh.kv.version k x = none from version_empty k x] at ht
        cases ht
      · intro a ha
        cases ha
      · intro i a b _ hb
        cases hb
      · intro a r ha
        cases ha
      · intro a t ha
        cases ha
      · intro a ha
        cases ha
    · intro e he
      cases he
    · intro e he
      cases he
    · intro k x t ht
      rw [show Tracked.initial.sh.kv.version k x = none from version_empty k x] at ht
      cases ht
    · intro e he
      cases he
    · intro e he
      cases he
  sess _ := sessInv_idle
  uniq s s' x hx := by cases hx
  apart s s' k hk := by cases hk

theorem inv_exec {cs : List (Call Row)} (h : Runs.exec Tracked.step Tracked.initial cs = some T) :
    Inv T :=
  Runs.exec_invariant (fun _ _ _ hI _ hs => inv_step hI hs) inv_initial
    (Runs.along_trivial (fun _ _ => trivial) _ cs) h

theorem inv_events {es : List (Event Row)}
    (h : Runs.exec event Tracked.initial es = some T) : Inv T :=
  Runs.exec_invariant (fun _ _ _ hI _ hs => inv_event hI hs) inv_initial
    (Runs.along_trivial (fun _ _ => trivial) _ es) h

theorem inv_engine {e : SqlEngine Row} {cs : List (Call Row)}
    (h : Runs.exec step initial cs = some e) : ∃ T : Tracked Row, Inv T ∧ T.engine = e := by
  obtain ⟨T, hT, he⟩ := exec_engine (T := Tracked.initial) h
  exact ⟨T, inv_exec hT, he⟩

end Crabgresql.Single
