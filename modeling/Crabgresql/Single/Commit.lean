import Crabgresql.Single.Allocate

/-!
# Commits, deregistration and release

A batch writes the pending changes of one statement and may record the outcome
of its transaction. Deregistering a transaction without a commit record strikes
its changes from the history; releasing its locks comes last.
-/

namespace Crabgresql.Single

open Mvcc Kv Procarray Lockmgr Exec Session Engine List History Change

variable {Row : Type}
variable {c : Change Row} {e : Entry Row} {k : RowKey}

def Shared.write (sh : Shared Row) (b : Batch Row) : Shared Row :=
  { sh with kv := writeBatch sh.kv b.ops, log := sh.log.write b }

section Write

variable {sh : Shared Row} {b : Batch Row}

theorem writeBatch_ops (kv : Store Row) (hseq : b.seqOps = []) (hnext : b.nextXid = none) :
    writeBatch kv b.ops = writeBatch (writeBatch kv b.rowOps) b.clogOps := by
  simp [Batch.ops, hseq, Batch.nextXidOps, hnext]

theorem version_write (hseq : b.seqOps = []) (hnext : b.nextXid = none) (k : RowKey) (y : Xid) :
    (sh.write b).kv.version k y = (writeBatch sh.kv b.rowOps).version k y := by
  change (writeBatch sh.kv b.ops).version k y = _
  rw [writeBatch_ops _ hseq hnext, Batch.clogOps]
  cases b.outcome <;> rfl

theorem clogGet_write (hseq : b.seqOps = []) (hnext : b.nextXid = none) (y : Xid) :
    (sh.write b).kv.clogGet y =
      if b.xid = y then b.outcome.getD (sh.kv.clogGet y) else sh.kv.clogGet y := by
  change (writeBatch sh.kv b.ops).clogGet y = _
  rw [writeBatch_ops _ hseq hnext, Batch.clogOps]
  cases b.outcome with
  | none => simp [Batch.rowOps]
  | some st =>
    change ((writeBatch sh.kv b.rowOps).setClog b.xid st).clogGet y = _
    rw [clogGet_setClog, Batch.rowOps, clogGet_flatMap_rowOps]
    rfl

theorem nextRowid_write (hseq : b.seqOps = []) (hnext : b.nextXid = none) (t : TableId) :
    (sh.write b).nextRowid t = sh.nextRowid t := by
  have hcounters : (sh.write b).kv.counters = sh.kv.counters := by
    change (writeBatch sh.kv b.ops).counters = _
    rw [writeBatch_ops _ hseq hnext, Batch.clogOps]
    cases b.outcome with
    | none => simp [Batch.rowOps]
    | some st =>
      change ((writeBatch sh.kv b.rowOps).setClog b.xid st).counters = _
      rw [counters_setClog, Batch.rowOps, counters_flatMap_rowOps]
  unfold Shared.nextRowid SequenceManager.current SequenceManager.readSeqKv
  rw [hcounters]
  rfl

theorem entries_filter_ne (h : k ∉ b.changes.map key) :
    (entries b).filter (fun e => e.key = k) = [] := by
  rw [filter_eq_nil_iff]
  intro e he hk
  obtain ⟨c, hc, rfl⟩ := mem_map.mp he
  have hk' : c.key = k := of_decide_eq_true hk
  exact h (hk' ▸ mem_map_of_mem hc)

theorem entries_filter (hnd : (b.changes.map key).Nodup) (hc : c ∈ b.changes) :
    (entries b).filter (fun e => e.key = c.key) = [⟨b.xid, b.work, c⟩] := by
  obtain ⟨x, w, ops, cs, o, n⟩ := b
  change (cs.map key).Nodup at hnd
  change c ∈ cs at hc
  change (cs.map fun c => (⟨x, w, c⟩ : Entry Row)).filter (fun e => e.key = c.key) = [⟨x, w, c⟩]
  induction cs with
  | nil => cases hc
  | cons c' cs ih =>
    rw [map_cons, nodup_cons] at hnd
    rw [map_cons, filter_cons]
    rcases mem_cons.mp hc with rfl | hmem
    · rw [if_pos (by simp)]
      congr 1
      rw [filter_eq_nil_iff]
      intro e he hk
      obtain ⟨d, hd, rfl⟩ := mem_map.mp he
      have hk' : d.key = c.key := of_decide_eq_true hk
      exact hnd.1 (hk' ▸ mem_map_of_mem hd)
    · have hne : ¬ decide ((⟨x, w, c'⟩ : Entry Row).key = c.key) = true := by
        intro hk
        have heq : c'.key = c.key := of_decide_eq_true hk
        exact hnd.1 (heq ▸ mem_map_of_mem hmem)
      rw [if_neg hne, ih hnd.2 hmem]

theorem mem_chain_of_pend (he : e ∈ sh.log.pend) : e.xid ∈ sh.log.chain e.key := by
  refine (Chronicle.mem_authors Entry.xid).mpr ⟨e, ?_, rfl⟩
  simp [rowLog, he]

theorem pend_xid_eq (h : SharedInv sh) {e' : Entry Row} (he : e ∈ sh.log.pend)
    (he' : e' ∈ sh.log.pend) (hkey : e.key = e'.key) : e.xid = e'.xid := by
  have hl := last_of_running (h.row e.key) (mem_chain_of_pend he) (h.pend_open e he).1
  have hl' := last_of_running (h.row e'.key) (mem_chain_of_pend he') (h.pend_open e' he').1
  rw [hkey, hl'] at hl
  exact (Option.some.inj hl).symm

theorem pending_pend {x : Xid} {cover : Option Snapshot} (h : SharedInv sh)
    (hp : Pending sh x cover c) (he : e ∈ sh.log.pend) (hkey : e.key = c.key) : e.xid = x := by
  have hcurrent : ∀ {k cx cur}, Current sh x cover k cx cur → e.key = k → e.xid = x := by
    intro k cx cur hcur hk
    by_contra hne
    subst hk
    exact not_finished_of_running (h.pend_open e he).1
      (hcur.others e.xid (mem_chain_of_pend he) hne).2
  cases c with
  | insert k =>
    have hmem : e ∈ sh.log.rowLog k := by
      simp only [rowLog, mem_filter, mem_append, decide_eq_true_eq]
      exact ⟨.inr he, hkey⟩
    rw [hp.1] at hmem
    cases hmem
  | update | delete => exact hcurrent hp hkey

theorem rowLog_write {cover : Option Snapshot} (h : SharedInv sh)
    (hp : ∀ c ∈ b.changes, Pending sh b.xid cover c) (k : RowKey) : (sh.write b).log.rowLog k =
      sh.log.rowLog k ++ (entries b).filter fun e => e.key = k := by
  change (sh.log.write b).rowLog k = _
  unfold write
  split
  · simp only [rowLog, filter_append, append_assoc]
    congr 1
    by_cases hmine : ∃ e ∈ sh.log.pend, e.key = k ∧ e.xid = b.xid
    · obtain ⟨e₀, he₀, hk₀, hx₀⟩ := hmine
      have hall : ∀ e ∈ sh.log.pend, e.key = k → e.xid = b.xid := by
        intro e he hk
        rw [← hx₀]
        exact pend_xid_eq h he he₀ (hk.trans hk₀.symm)
      have hkeep : (sh.log.pend.filter fun e => e.xid = b.xid).filter (fun e => e.key = k) =
          sh.log.pend.filter fun e => e.key = k := by
        rw [filter_filter]
        apply filter_congr
        intro e he
        by_cases hk : e.key = k
        · simp [hk, hall e he hk]
        · simp [hk]
      have hdrop : (sh.log.pend.filter fun e => e.xid ≠ b.xid).filter (fun e => e.key = k) =
          [] := by
        rw [filter_filter, filter_eq_nil_iff]
        intro e he hcond
        simp only [ne_eq, decide_not, Bool.and_eq_true, decide_eq_true_eq, Bool.not_eq_true',
          decide_eq_false_iff_not] at hcond
        exact hcond.2 (hall e he hcond.1)
      rw [hkeep, hdrop, append_nil]
    · have hnone : ∀ e ∈ sh.log.pend, e.key = k → e.xid ≠ b.xid := by
        intro e he hk hx
        exact hmine ⟨e, he, hk, hx⟩
      have hkeep : (sh.log.pend.filter fun e => e.xid = b.xid).filter (fun e => e.key = k) =
          [] := by
        rw [filter_filter, filter_eq_nil_iff]
        intro e he hcond
        simp only [Bool.and_eq_true, decide_eq_true_eq] at hcond
        exact hnone e he hcond.1 hcond.2
      have hdrop : (sh.log.pend.filter fun e => e.xid ≠ b.xid).filter (fun e => e.key = k) =
          sh.log.pend.filter fun e => e.key = k := by
        rw [filter_filter]
        apply filter_congr
        intro e he
        by_cases hk : e.key = k
        · simp [hk, hnone e he hk]
        · simp [hk]
      rw [hkeep, hdrop, nil_append]
      -- a change of a row that another transaction has open is impossible
      by_cases hk : k ∈ b.changes.map key
      · obtain ⟨c, hc, hck⟩ := mem_map.mp hk
        have hpend : sh.log.pend.filter (fun e => e.key = k) = [] := by
          rw [filter_eq_nil_iff]
          intro e he hek
          have hek' : e.key = k := by simpa using hek
          exact hnone e he hek' (pending_pend h (hp c hc) he (hek'.trans hck.symm))
        rw [hpend, append_nil, nil_append]
      · rw [entries_filter_ne hk, nil_append, append_nil]
  · simp only [rowLog, filter_append, append_assoc]

end Write

section Apply

variable {sh : Shared Row} {b : Batch Row} {cover : Option Snapshot}

/-- What is known of a batch when it is written. -/
structure Writable (sh : Shared Row) (b : Batch Row) (cover : Option Snapshot) : Prop where
  seqOps : b.seqOps = []
  nextXid : b.nextXid = none
  running : b.xid ∈ sh.pa.running
  clog : sh.kv.clogGet b.xid = .inProgress
  outcome : b.outcome = none ∨ b.outcome = some .committed ∨
    b.outcome = some .aborted ∧ b.changes = []
  changes : ChangesInv sh b.xid cover b.work b.changes

theorem Writable.writes (hb : Writable sh b cover) : Writes sh (sh.write b) b.xid where
  pa := rfl
  lm := rfl
  clog y hy := by rw [clogGet_write hb.seqOps hb.nextXid, if_neg (Ne.symm hy)]
  running := hb.running

theorem Writable.rowLog (hb : Writable sh b cover) (h : SharedInv sh) (hc : c ∈ b.changes) :
    (sh.write b).log.rowLog c.key = sh.log.rowLog c.key ++ [⟨b.xid, b.work, c⟩] := by
  rw [rowLog_write h hb.changes.pending, entries_filter hb.changes.nodup hc]

theorem Writable.rowLog_ne (hb : Writable sh b cover) (h : SharedInv sh)
    (hk : k ∉ b.changes.map key) : (sh.write b).log.rowLog k = sh.log.rowLog k := by
  rw [rowLog_write h hb.changes.pending, entries_filter_ne hk, append_nil]

theorem Writable.version_ne (hb : Writable sh b cover) (hk : k ∉ b.changes.map key)
    (y : Xid) : (sh.write b).kv.version k y = sh.kv.version k y := by
  rw [version_write hb.seqOps hb.nextXid]
  exact version_flatMap_rowOps_ne sh.kv b.xid hk y

theorem Writable.row (hb : Writable sh b cover) (h : SharedInv sh) (k : RowKey) :
    RowInv (sh.write b) k := by
  by_cases hk : k ∈ b.changes.map key
  · obtain ⟨c, hc, rfl⟩ := mem_map.mp hk
    refine (h.row c.key).write hb.writes (hb.rowLog h hc) (hb.changes.pending c hc) ?_
    intro y
    rw [version_write hb.seqOps hb.nextXid]
    exact version_flatMap_rowOps sh.kv b.xid hb.changes.nodup hc y
  · exact hb.writes.same (h.row k) (hb.rowLog_ne h hk) (hb.version_ne hk)

theorem Writable.committed (hb : Writable sh b cover) {y : Xid} (hy : sh.Committed y) :
    (sh.write b).Committed y := by
  refine hb.writes.committed ?_ hy
  rintro rfl
  have hclog := hb.clog
  rw [hy] at hclog
  cases hclog

theorem Writable.clogGet_xid (hb : Writable sh b cover) :
    (sh.write b).kv.clogGet b.xid = b.outcome.getD .inProgress := by
  rw [clogGet_write hb.seqOps hb.nextXid, if_pos rfl, hb.clog]

theorem pending_lt {x : Xid} (h : SharedInv sh) (hp : Pending sh x cover c) :
    c.key.2 < sh.nextRowid c.key.1 := by
  have hcurrent : ∀ {k cx cur}, Current sh x cover k cx cur → k.2 < sh.nextRowid k.1 := by
    intro k cx cur hcur
    obtain ⟨m, hm, -⟩ := (h.row k).live cx cur hcur.last hcur.image
    exact h.rowid_lt k cx _ hm
  cases c with
  | insert => exact hp.2.2
  | update | delete => exact hcurrent hp

theorem mem_log_write (he : e ∈ (sh.write b).log.hist ++ (sh.write b).log.pend) :
    e ∈ sh.log.hist ++ sh.log.pend ∨ ∃ c ∈ b.changes, e = ⟨b.xid, b.work, c⟩ := by
  change e ∈ (sh.log.write b).hist ++ (sh.log.write b).pend at he
  unfold write at he
  have hentries : e ∈ entries b → ∃ c ∈ b.changes, e = ⟨b.xid, b.work, c⟩ := by
    intro hmem
    obtain ⟨c, hc, rfl⟩ := mem_map.mp hmem
    exact ⟨c, hc, rfl⟩
  split at he
  · simp only [mem_append, mem_filter] at he ⊢
    rcases he with ((hh | hp) | hn) | hp
    · exact .inl (.inl hh)
    · exact .inl (.inr hp.1)
    · exact .inr (hentries hn)
    · exact .inl (.inr hp.1)
  · simp only [mem_append] at he ⊢
    rcases he with hh | hp | hn
    · exact .inl (.inl hh)
    · exact .inl (.inr hp)
    · exact .inr (hentries hn)

theorem Writable.sharedInv (hb : Writable sh b cover) (h : SharedInv sh) :
    SharedInv (sh.write b) where
  next_pos := h.next_pos
  zero := by
    refine ⟨h.zero.1, ?_⟩
    have hne : invalidXid ≠ b.xid := by
      intro heq
      exact h.zero.1 (heq ▸ hb.running)
    rw [hb.writes.clog _ hne, h.zero.2]
  running_lt := h.running_lt
  clog_lt y hy := by
    by_cases hx : y = b.xid
    · subst hx
      exact h.running_lt _ hb.running
    · rw [hb.writes.clog y hx] at hy
      exact h.clog_lt y hy
  unprepared y g hy := by
    by_cases hx : y = b.xid
    · subst hx
      rw [hb.clogGet_xid] at hy
      rcases hb.outcome with ho | ho | ⟨ho, -⟩ <;> rw [ho] at hy <;> cases hy
    · rw [hb.writes.clog y hx] at hy
      exact h.unprepared y g hy
  sole := h.sole
  row := hb.row h
  hist_committed e he := by
    change e ∈ (sh.log.write b).hist at he
    unfold write at he
    split at he
    · rename_i ho
      have hcom : (sh.write b).Committed b.xid := by
        unfold Shared.Committed
        rw [hb.clogGet_xid, ho]
        rfl
      simp only [mem_append, mem_filter, decide_eq_true_eq] at he
      rcases he with (hh | ⟨-, hx⟩) | hn
      · exact hb.committed (h.hist_committed e hh)
      · rw [hx]
        exact hcom
      · obtain ⟨c, -, rfl⟩ := mem_map.mp hn
        exact hcom
    · exact hb.committed (h.hist_committed e he)
  pend_open e he := by
    change e ∈ (sh.log.write b).pend at he
    unfold write at he
    split at he
    · simp only [mem_filter, ne_eq, decide_not, Bool.not_eq_true',
        decide_eq_false_iff_not] at he
      have hopen := h.pend_open e he.1
      refine ⟨hopen.1, ?_⟩
      unfold Shared.Committed
      rw [hb.writes.clog _ he.2]
      exact hopen.2
    · rename_i ho
      have hxid : ¬ (sh.write b).Committed b.xid := by
        unfold Shared.Committed
        rw [hb.clogGet_xid]
        rcases hb.outcome with ho' | ho' | ⟨ho', -⟩
        · rw [ho']
          decide
        · exact absurd ho' ho
        · rw [ho']
          decide
      rcases mem_append.mp he with hold | hn
      · have hopen := h.pend_open e hold
        refine ⟨hopen.1, ?_⟩
        by_cases hx : e.xid = b.xid
        · rw [hx]
          exact hxid
        · unfold Shared.Committed
          rw [hb.writes.clog _ hx]
          exact hopen.2
      · obtain ⟨c, -, rfl⟩ := mem_map.mp hn
        exact ⟨hb.running, hxid⟩
  rowid_lt k y t ht := by
    rw [nextRowid_write hb.seqOps hb.nextXid]
    by_cases hk : k ∈ b.changes.map key
    · obtain ⟨c, hc, rfl⟩ := mem_map.mp hk
      exact pending_lt h (hb.changes.pending c hc)
    · rw [hb.version_ne hk] at ht
      exact h.rowid_lt k y t ht
  key_lt e he := by
    rw [nextRowid_write hb.seqOps hb.nextXid]
    rcases mem_log_write he with hold | ⟨c, hc, rfl⟩
    · exact h.key_lt e hold
    · exact pending_lt h (hb.changes.pending c hc)
  valid e he := by
    rcases mem_log_write he with hold | ⟨c, hc, rfl⟩
    · exact h.valid e hold
    · exact hb.changes.valid c hc

theorem Writable.evolve (hb : Writable sh b cover) (h : SharedInv sh) :
    Evolve b.xid (insertKeys b.changes) sh (sh.write b) where
  finished _ hy := hy
  running _ _ hy := hy
  clog := hb.writes.clog
  committed _ hy := hb.committed hy
  lock _ _ _ hl := hl
  rowid t := by rw [nextRowid_write hb.seqOps hb.nextXid]
  row k := by
    by_cases hk : k ∈ b.changes.map key
    · obtain ⟨c, hc, rfl⟩ := mem_map.mp hk
      have hp := hb.changes.pending c hc
      have hcurrent : ∀ {cx cur}, Current sh b.xid cover c.key cx cur →
          RowStep b.xid (insertKeys b.changes) sh (sh.write b) c.key := by
        intro cx cur hcur
        refine .write ⟨b.xid, b.work, c⟩ rfl (hb.rowLog h hc) hb.running
          (fun y hy hne => (hcur.others y hy hne).2) (.inl ⟨hcur.lock, ?_⟩)
        exact ne_nil_of_mem (mem_of_getLast? hcur.last)
      cases c with
      | insert k =>
        refine .write _ rfl (hb.rowLog h hc) hb.running ?_ (.inr ⟨hp.1, ?_⟩)
        · intro y hy
          change y ∈ Chronicle.authors Entry.xid (sh.log.rowLog k) at hy
          rw [hp.1] at hy
          cases hy
        · exact mem_filterMap.mpr ⟨_, hc, rfl⟩
      | update | delete => exact hcurrent hp
    · exact .same (hb.rowLog_ne h hk) (hb.version_ne hk)

theorem Writable.viewInv {S : Snapshot} (hb : Writable sh b (some S)) (h : SharedInv sh)
    (hV : ViewInv sh S (some b.xid)) : ViewInv (sh.write b) S (some b.xid) where
  finished := hV.finished
  closed := hV.evolve_closed h (hb.evolve h)
  covers k x hx hxc a ha hne := by
    cases hx
    by_cases hk : k ∈ b.changes.map key
    · obtain ⟨c, hc, rfl⟩ := mem_map.mp hk
      have hp := hb.changes.pending c hc
      rw [chain_write (hb.rowLog h hc), Chronicle.mem_addAuthor] at ha
      have ha' : a ∈ sh.log.chain c.key := ha.resolve_right hne
      cases c with
      | insert k =>
        change a ∈ Chronicle.authors Entry.xid (sh.log.rowLog k) at ha'
        rw [hp.1] at ha'
        cases ha'
      | update | delete => exact hp.covered S rfl a ha' hne
    · rw [chain_congr (hb.rowLog_ne h hk)] at hxc ha
      exact hV.covers k b.xid rfl hxc a ha hne

end Apply

theorem inv_apply {T : Tracked Row} (h : Inv T) {s : SessionId} {v : View Row}
    (hv : (T.view s).apply env true = some v) :
    Inv (T.set s v (T.sh.log.after (T.sessions s) (.apply true))) := by
  have hS := h.sess s
  rcases hu : T.sessions s with ⟨txn, g, pc, err⟩
  simp only [View.apply, Tracked.view, hu] at hv
  simp only [History.after]
  rw [hu] at hS
  obtain rfl : g = none := hS.global
  split at hv
  · rename_i b epoch after
    have hb : BatchInv T.sh txn b after := hS.pc
    have hxid : b.xid ∈ T.sh.pa.running ∧ T.sh.kv.clogGet b.xid = .inProgress :=
      ⟨hS.running _ rfl, hS.undecided _ rfl rfl⟩
    have hactive : activeXid (T.sessions s) = some b.xid := by rw [hu]; rfl
    have hins : ∀ k ∈ insertKeys b.changes, k ∈ insertKeys (pendingChanges (T.sessions s)) :=
      fun k hk => hu ▸ hk
    have hafter := hb.after
    cases after with
    | enlist => exact hafter.elim
    | keep =>
      obtain ⟨ho, c, rfl, hx, hcs⟩ := hafter
      have hw : Writable T.sh b (coverOf c.repeatableRead c.snapshot) :=
        ⟨hb.seqOps, hb.nextXid, hxid.1, hxid.2, .inl ho, hcs⟩
      cases hv
      change Inv (⟨T.sh.write b, Function.update T.sessions s
        ⟨.inTransaction c, none, .ready, err⟩⟩ : Tracked Row)
      refine h.step_own hactive (hw.sharedInv h.shared) (hw.evolve h.shared) hins
        (sessInv_ready ?_ ?_) (fun y hy => Option.some.inj (hx.symm.trans hy))
        (by simp [pendingChanges, insertKeys])
      · intro y hy
        have hy' : some y = some b.xid := (hy.symm.trans hx :)
        cases hy'
        refine ⟨hxid.1, ?_⟩
        rw [hw.clogGet_xid, ho]
        rfl
      · rintro c' (hc | hc) hrr
        · cases hc
          have hview := hS.block c (.inl rfl) hrr
          rw [hx] at hview ⊢
          simp only [coverOf, hrr, if_true] at hw
          exact hw.viewInv h.shared hview
        · cases hc
    | close ack =>
      obtain ⟨rfl, ho, hcs⟩ := hafter
      have hw : Writable T.sh b none :=
        ⟨hb.seqOps, hb.nextXid, hxid.1, hxid.2, .inr ho, hcs⟩
      cases hv
      change Inv (⟨T.sh.write b, Function.update T.sessions s
        ⟨.idle, none, .finishing b.xid (ack && true), err⟩⟩ : Tracked Row)
      refine h.step_own hactive (hw.sharedInv h.shared) (hw.evolve h.shared) hins
        ⟨rfl, ?_, ?_, ?_, rfl⟩ (fun y => Option.some.inj) (by simp [pendingChanges, insertKeys])
      · intro y hy
        cases hy
        exact hxid.1
      · intro y _ hf
        cases hf
      · rintro c (hc | hc)
        · cases hc
        · cases hc
  · cases hv

end Crabgresql.Single
