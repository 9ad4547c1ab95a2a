import Crabgresql.Cluster.Settled

/-!
# The row locks of participants

A statement locks every row whose version it supersedes and keeps the lock until
its transaction ends. Behind an open gate, the rows that a participant in doubt
has superseded or deleted are therefore locked. A row it has only inserted is
not: an INSERT takes no lock.
-/

namespace Crabgresql.Cluster

open Mvcc Kv Procarray Lockmgr Exec Session Engine Recovery List Range Runs MultiRangeCluster

variable {Row : Type}
variable {x : Xid}

def Stamps (cs : List (Change Row)) (k : RowKey) : Prop :=
  ∃ c ∈ cs, (target c).isSome = true ∧ c.key = k

def pcStamps (pc : Pc Row) (k : RowKey) : Prop :=
  match pc with
  | .scanning f | .looping f | .acquiring f _ => Stamps f.changes k
  | .locked f r => Stamps f.changes k ∨ f.work.isWrite = true ∧ f.key r = k
  | .committing b _ _ => Stamps b.changes k
  | _ => False

def pcWrites (pc : Pc Row) : Prop :=
  match pc with
  | .starting w _ _ => w.isWrite = true
  | .scanning f | .looping f | .acquiring f _ | .locked f _ => f.work.isWrite = true
  | _ => False

theorem not_stamps_nil (k : RowKey) : ¬ Stamps ([] : List (Change Row)) k := by
  rintro ⟨c, hc, -⟩
  cases hc

section Sessions

variable {env : Env} {v v' : View Row} {a : Act Row} {k : RowKey}

theorem not_pcStamps_returned (u : Sess Row) (b : Batch Row) (after : After) (ok : Bool) :
    ¬ pcStamps (u.returned b after ok).pc k := by
  cases after <;> cases ok <;> simp only [Sess.returned, pcStamps, not_false_eq_true]
  split_ifs <;> exact id

theorem not_pcWrites_returned (u : Sess Row) (b : Batch Row) (after : After) (ok : Bool) :
    ¬ pcWrites (u.returned b after ok).pc := by
  cases after <;> cases ok <;> simp only [Sess.returned, pcWrites, not_false_eq_true]
  split_ifs <;> exact id

theorem Move.stamps (hm : Move env v a v') (h : pcStamps v'.self.pc k) :
    pcStamps v.self.pc k ∨ ∃ f r, v.self.pc = .acquiring f r ∧ f.work.isWrite = true ∧
      v'.lm.HoldsExclusive k f.xid := by
  cases hm with
  | read w x auto f txn hpc hx hw hauto htodo hchanges =>
    simp only [pcStamps, hchanges] at h
    exact absurd h (not_stamps_nil k)
  | fill f t rows cs seq n hpc hw hcs =>
    obtain ⟨c, hc, htarget, -⟩ := h
    obtain ⟨r, row, rfl, -⟩ := (insertChanges_ok hcs).2 c hc
    cases htarget
  | walk a f todo hpc =>
    rcases hpc with hpc | hpc | ⟨r, hpc⟩ <;> rw [hpc]
    · exact .inl h
    · exact .inl h
    · exact .inl (.inl h)
  | target f todo r hpc | submit f hpc | stage f c rows marker hpc =>
    rw [hpc]
    exact .inl h
  | grant f r pick lm hpc ho =>
    rcases h with h | ⟨hw, rfl⟩
    · rw [hpc]
      exact .inl h
    · have hmode : f.work.lockMode = .exclusive := by
        cases hwork : f.work <;> rw [hwork] at hw <;> first | rfl | cases hw
      rw [hmode] at ho
      exact .inr ⟨f, r, hpc, hw, LockMgr.acquire_exclusive ho⟩
  | wait => exact .inl h
  | fail =>
    simp only [failPc] at h
    split_ifs at h
    · exact absurd h (not_stamps_nil k)
    · exact h.elim
    · exact h.elim
  | take f r found c hpc hfound hc =>
    rw [hpc]
    obtain ⟨c', hc', htarget, hkey⟩ := h
    rcases mem_append.mp hc' with hmem | hmem
    · exact .inl (.inl ⟨c', hmem, htarget, hkey⟩)
    · obtain rfl := mem_singleton.mp hmem
      have hw : f.work.isWrite = true := by
        rcases Work.change_some hc with ⟨t, filter, set, next, hw, -⟩ | ⟨t, filter, hw, -⟩ <;>
          rw [hw] <;> rfl
      exact .inl (.inr ⟨hw, (target_change hc).2.symm.trans hkey⟩)
  | done =>
    simp only at h
    split_ifs at h <;> exact h.elim
  | commit | abort | join => exact absurd h (not_stamps_nil k)
  | apply ok b epoch after => exact absurd h (not_pcStamps_returned _ b after ok)
  | _ => exact h.elim

theorem Move.writes (hm : Move env v a v') (h : pcWrites v'.self.pc) :
    pcWrites v.self.pc ∨ ∃ w, a = .start w ∧ w.isWrite = true := by
  cases hm with
  | alloc w | resume w => exact .inr ⟨w, rfl, h⟩
  | read w x auto f txn hpc hx hw =>
    rw [hpc]
    exact .inl (hw ▸ h)
  | fill f t rows cs seq n hpc | target f todo r hpc | grant f r pick lm hpc
  | take f r found c hpc =>
    rw [hpc]
    exact .inl h
  | walk a f todo hpc =>
    rcases hpc with hpc | hpc | ⟨r, hpc⟩ <;> rw [hpc] <;> exact .inl h
  | wait => exact .inl h
  | fail =>
    simp only [failPc] at h
    split_ifs at h <;> exact h.elim
  | done =>
    simp only at h
    split_ifs at h <;> exact h.elim
  | apply ok b epoch after => exact absurd h (not_pcWrites_returned _ b after ok)
  | _ => exact h.elim

theorem Move.holds (hm : Move env v a v') (h : v.lm.HoldsExclusive k x)
    (hrelease : ∀ z ack, v.self.pc = .releasing z ack → x ≠ z)
    (hdrop : ∀ z, v.self.pc = .ready → v.self.txn.localXid = some z → activeXid v'.self = none → x ≠ z) :
    v'.lm.HoldsExclusive k x := by
  cases hm with
  | grant f r pick lm hpc ho | wait f r pick lm hpc ho => exact LockMgr.acquire_holdsExclusive ho h
  | fail a f e lm seq hpc hlm =>
    rcases hlm with rfl | ⟨r, pick, -, ho⟩
    · exact h
    · exact LockMgr.acquire_holdsExclusive ho h
  | release z ack hpc => exact LockMgr.releaseAll_holdsExclusive (hrelease z ack hpc) h
  | drop z hpc hx => exact LockMgr.releaseAll_holdsExclusive (hdrop z hpc hx rfl) h
  | _ => exact h

end Sessions

section Versions

variable {kv : Store Row}

theorem xmax_rowOps {c : Change Row} {k : RowKey} {y : Xid} {t : Tuple Row}
    (h : .version (versionKey k y) t ∈ c.rowOps x) :
    t.xmax = invalidXid ∨ t.xmax = x ∧ (target c).isSome = true ∧ c.key = k := by
  cases c with
  | insert =>
    simp only [Change.rowOps, mem_singleton, WriteOp.version.injEq] at h
    rw [h.2]
    exact .inl rfl
  | update =>
    simp only [Change.rowOps] at h
    split_ifs at h
    · simp only [mem_singleton, WriteOp.version.injEq] at h
      rw [h.2]
      exact .inl rfl
    · simp only [mem_cons, not_mem_nil, or_false, WriteOp.version.injEq,
        versionKey_inj] at h
      rcases h with ⟨⟨rfl, -⟩, rfl⟩ | ⟨-, rfl⟩
      · exact .inr ⟨rfl, rfl, rfl⟩
      · exact .inl rfl
  | delete =>
    simp only [Change.rowOps, mem_singleton, WriteOp.version.injEq, versionKey_inj] at h
    obtain ⟨⟨rfl, -⟩, rfl⟩ := h
    exact .inr ⟨rfl, rfl, rfl⟩

theorem xmax_applyBatch_ops {b : Batch Row} (hseq : SeqOnly b.seqOps) {k : RowKey} {y : Xid}
    {t : Tuple Row} (h : (applyBatch kv b.ops).version k y = some t) :
    kv.version k y = some t ∨ t.xmax = invalidXid ∨ t.xmax = b.xid ∧ Stamps b.changes k := by
  rcases version_applyBatch kv b.ops k y with hsame | ⟨t', ht', hop⟩
  · rw [hsame] at h
    exact .inl h
  · rw [ht'] at h
    cases h
    obtain ⟨c, hc, hop⟩ := version_mem_ops hseq hop
    rcases xmax_rowOps hop with hx | ⟨hx, htarget, hkey⟩
    · exact .inr (.inl hx)
    · exact .inr (.inr ⟨hx, c, hc, htarget, hkey⟩)

end Versions

def Superseded (kv : Store Row) (k : RowKey) (x : Xid) : Prop :=
  x ≠ invalidXid ∧ ∃ y t, kv.version k y = some t ∧ t.xmax = x

/-- Transaction `x` of session `s` has stamped a version of row `k`, or is about to. -/
def Touches (R : Range Row) (n : NodeId) (s : SessionId) (x : Xid) (k : RowKey) : Prop :=
  Superseded R.tip k x ∨
    (∃ p ∈ R.inflight, ∃ b, p.2.proposal = .batch b ∧ b.xid = x ∧ Stamps b.changes k) ∨
    pcStamps (R.sess n s).pc k

structure LockInv (glob : GlobalView) (R : Range Row) : Prop where
  settled : SettledInv glob R
  xmax : ∀ k y t, R.tip.version k y = some t → t.xmax < R.next
  releasing : ∀ n s z ack, (R.sess n s).pc = .releasing z ack → z < (R.nodes n).pa.nextXid ∧
    ∀ s' x, activeXid (R.sess n s') = some x → x ≠ z
  writing : ∀ n s, R.leader = some n → pcWrites (R.sess n s).pc → (R.nodes n).served = R.term
  locks : ∀ n s x k, R.leader = some n → activeXid (R.sess n s) = some x → Touches R n s x k →
    (R.nodes n).served = R.term ∧ (R.nodes n).lm.HoldsExclusive k x

section Steps

variable {R R' : Range Row} {n : NodeId} {s : SessionId} {a : Act Row} {glob : GlobalView}

theorem next_pos (R : Range Row) : invalidXid < R.next := Nat.lt_of_lt_of_le Nat.zero_lt_one
  (le_max_right _ _)

theorem superseded_append {e : LogEntry Row} (hseq : ∀ b, e.proposal = .batch b → SeqOnly b.seqOps)
    {k : RowKey} (h : Superseded (R.append e).tip k x) : Superseded R.tip k x ∨
      ∃ b, e.proposal = .batch b ∧ b.xid = x ∧ Stamps b.changes k := by
  obtain ⟨hx, y, t, ht, hxmax⟩ := h
  rw [tip_append] at ht
  obtain ⟨proposal, staged⟩ := e
  cases proposal with
  | scanLo lo =>
    rw [show applyBatch R.tip (Proposal.scanLo lo).ops = applyOp R.tip (.counter .clogScanLo lo)
      from rfl, version_applyOp] at ht
    exact .inl ⟨hx, y, t, ht, hxmax⟩
  | batch b =>
    rcases xmax_applyBatch_ops (hseq b rfl) ht with hold | hinv | ⟨hb, hst⟩
    · exact .inl ⟨hx, y, t, hold, hxmax⟩
    · exact absurd (hxmax.symm.trans hinv) hx
    · exact .inr ⟨b, rfl, hb.symm.trans hxmax, hst⟩

variable {act : RangeAct Row} {m : NodeId} {s' : SessionId} {k : RowKey}

theorem LockInv.xmax_step (h : LockInv glob R) (hok : Folded R act)
    (hstep : R.step glob act = some R') {y : Xid} {t : Tuple Row}
    (ht : R'.tip.version k y = some t) : t.xmax < R'.next := by
  have hle := durable_le_step hstep
  rcases log_step hstep with hlog | ⟨e, ha, hlog⟩
  · rw [show R'.tip = R.tip by simp [tip, hlog]] at ht
    exact (h.xmax k y t ht).trans_le hle
  have he := h.settled.marks.acks.xids.appendable hok ha
  have hnext := next_append he
  rw [← show R'.next = (R.append e).next by simp [Range.next, tip, append, hlog]] at hnext
  rw [show R'.tip = applyBatch R.tip e.proposal.ops by simp [tip, hlog]] at ht
  cases hb : e.proposal with
  | scanLo lo =>
    rw [hb, show applyBatch R.tip (Proposal.scanLo lo).ops =
      applyOp R.tip (.counter .clogScanLo lo) from rfl, version_applyOp] at ht
    exact (h.xmax k y t ht).trans_le hle
  | batch b =>
    rw [hb] at ht hnext
    obtain ⟨hfold, next, hok, -⟩ := he b hb
    rcases xmax_applyBatch_ops hok.seqOps ht with hold | hinv | ⟨hx, -⟩
    · exact (h.xmax k y t hold).trans_le hle
    · rw [hinv]
      exact next_pos _
    · rw [hx]
      cases hn : b.nextXid with
      | none => exact (hfold hn).trans_le hle
      | some m =>
        simp only [hn, Option.getD_some] at hnext
        rw [hnext]
        exact (hok.fold m hn).1.trans_le (le_max_right _ _)

theorem activeXid_of_writes {u : Sess Row} (h : pcWrites u.pc) : activeXid u ≠ none := by
  unfold pcWrites at h
  unfold activeXid
  split at h <;> simp_all

theorem tends_idle {act : RangeAct Row} {node : Node Row} (ht : Tends R glob n act node)
    (hidle : (R.nodes n).sweep = .idle) :
    node.served = (R.nodes n).served ∧ node.lm = (R.nodes n).lm := by
  cases ht with
  | catchUp | giveUp => exact ⟨rfl, rfl⟩
  | relock lag term hsweep | scan lag term inDoubt hsweep
  | raced ok term inDoubt lo g gs resolved hsweep | unlock term inDoubt lo resolved hsweep
  | rescan lag term lo sweep hsweep hnext | serve term hsweep =>
    rw [hidle] at hsweep
    cases hsweep

theorem LockInv.releasing_step (h : LockInv glob R) (hstep : R.step glob act = some R') {z : Xid}
    {ack : Bool} (hpc : (R'.sess n s).pc = .releasing z ack) : z < (R'.nodes n).pa.nextXid ∧
      ∀ s' x, activeXid (R'.sess n s') = some x → x ≠ z := by
  have hxids := h.settled.marks.acks.xids
  have hboot : act ≠ .crash n := by
    rintro rfl
    cases hstep
    rw [sess_crash, if_pos rfl] at hpc
    cases hpc
  have hle := nextXid_le_step hstep hboot
  have hb := became_step hstep n s
  generalize hu : R'.sess n s = u at hb hpc
  cases hb with
  | same =>
    obtain ⟨hlt, hne⟩ := h.releasing n s z ack hpc
    refine ⟨hlt.trans_le hle, fun s' x hx => ?_⟩
    rcases hxids.active_step hstep hx with ⟨hx, -⟩ | ⟨rfl, -⟩
    · exact hne s' x hx
    · exact hlt.ne'
  | new => cases hpc
  | returned b epoch after ok => exact absurd hpc (returned_not_releasing _ b after ok)
  | moved a v lag hact ha hadm hmove =>
    have hfin : (R.sess n s).pc = .finishing z ack := Move.of_releasing hmove hpc
    have hz : activeXid (R.sess n s) = some z := by simp [activeXid, hfin]
    have hlt := (hxids.sess n s).xid z hz
    refine ⟨hlt.trans_le hle, fun s' x hx => ?_⟩
    rcases hxids.active_step hstep hx with ⟨hold, -⟩ | ⟨rfl, -⟩
    · rintro rfl
      obtain ⟨-, rfl⟩ := h.settled.marks.acks.uniq n s' n s x hold hz
      simp [hu, activeXid, hpc] at hx
    · exact hlt.ne'

theorem LockInv.served_step (h : LockInv glob R) (hstep : R.step glob act = some R')
    (hl : R.leader = some m) (hl' : R'.leader = some m) (hterm : R'.term = R.term)
    (hs : (R.nodes m).served = R.term) : (R'.nodes m).served = R'.term := by
  rw [(gates_step hstep m).served (h.settled.idle m hl hs) hl', hs, hterm]

theorem LockInv.writing_step (h : LockInv glob R) (horderly : Orderly glob R act)
    (hstep : R.step glob act = some R') (hl' : R'.leader = some m)
    (hw : pcWrites (R'.sess m s').pc) : (R'.nodes m).served = R'.term := by
  rcases leader_before hstep hl' with ⟨hl, hterm, -⟩ | ⟨rfl, rfl⟩
  · refine h.served_step hstep hl hl' hterm ?_
    have hb := became_step hstep m s'
    generalize R'.sess m s' = u at hb hw
    cases hb with
    | same => exact h.writing m s' hl hw
    | new => exact hw.elim
    | returned b epoch after ok => exact absurd hw (not_pcWrites_returned _ b after ok)
    | moved a v lag hact ha hadm hmove =>
      rcases Move.writes hmove hw with hw | ⟨w, rfl, hw⟩
      · exact h.writing m s' hl hw
      · simp only [admits, hw, Bool.not_true, Bool.false_or, Bool.and_eq_true,
          serving, decide_eq_true_eq] at hadm
        exact hadm.2.2
  · exact absurd (horderly s') (activeXid_of_writes hw)

/-- The leader keeps the locks of a transaction that stays open. -/
theorem LockInv.holds_step (h : LockInv glob R) (hstep : R.step glob act = some R')
    (hl : R.leader = some m) (hl' : R'.leader = some m) (hs : (R.nodes m).served = R.term)
    (hx : activeXid (R.sess m s') = some x) (hx' : activeXid (R'.sess m s') = some x)
    (hlock : (R.nodes m).lm.HoldsExclusive k x) : (R'.nodes m).lm.HoldsExclusive k x := by
  have hturn := turned_step hstep m
  unfold sess at hx'
  generalize R'.nodes m = node at hturn hx'
  cases hturn with
  | same | returned | settle | advance => exact hlock
  | boot hact =>
    subst hact
    cases hstep
    exact absurd rfl (R.leader_crash m hl').2
  | tends node hpa hsess hintent ht =>
    rw [(tends_idle ht (h.settled.idle m hl hs)).2]
    exact hlock
  | moved s a v lag hact ha hadm hmove =>
    refine Move.holds hmove hlock (fun z ack hpc => (h.releasing m s z ack hpc).2 s' x hx) ?_
    rintro z hpc hz hnone rfl
    have hactive : activeXid (R.sess m s) = some x := by
      unfold activeXid
      rw [show (R.sess m s).pc = .ready from hpc]
      exact hz
    obtain ⟨-, rfl⟩ := h.settled.marks.acks.uniq m s' m s x hx hactive
    simp [movedNode, Node.set, hnone] at hx'

/-- A row that a transaction touches was touched before, or its lock has just been taken. -/
theorem LockInv.touches_step (h : LockInv glob R) (hacks : AckInv R')
    (hstep : R.step glob act = some R') (hx : activeXid (R'.sess m s') = some x)
    (ht : Touches R' m s' x k) :
    Touches R m s' x k ∨ ∃ f r, (R.sess m s').pc = .acquiring f r ∧ f.work.isWrite = true ∧
      (R'.nodes m).lm.HoldsExclusive k f.xid := by
  -- the stamps of a batch are those of the session that proposed it
  have hown : ∀ {n s b epoch after ok lag}, act = .call n s (.apply ok) lag →
      (R.sess n s).pc = .committing b epoch after → b.xid = x → Stamps b.changes k →
      Touches R m s' x k := by
    rintro n s b epoch after ok lag rfl hpc rfl hst
    have hc : Coherent (R.sess n s) := (h.settled.marks.acks.xids.sess n s).coherent
    have hret := (congrArg activeXid (returned_step hstep hpc)).trans (activeXid_returned hc hpc ok)
    obtain ⟨rfl, rfl⟩ := hacks.uniq m s' n s b.xid hx hret
    exact .inr (.inr (by rw [hpc]; exact hst))
  rcases ht with ht | ⟨p, hp, b, hb, hbx, hst⟩ | ht
  · refine .inl ?_
    rcases log_step hstep with hlog | ⟨e, ha, hlog⟩
    · rw [show R'.tip = R.tip by simp [tip, hlog]] at ht
      exact .inl ht
    rw [show R'.tip = (R.append e).tip by simp [tip, append, hlog]] at ht
    rcases superseded_append (h.settled.guarded.origin ha) ht with ht | ⟨b, hb, hbx, hst⟩
    · exact .inl ht
    cases ha with
    | session n s b' epoch after lag hpc =>
      cases hb
      exact hown rfl hpc hbx hst
    | flight i epoch e hget => exact .inr (.inl ⟨_, mem_of_getElem? hget, b, hb, hbx, hst⟩)
    | watermark => cases hb
  · refine .inl ?_
    rcases inflight_step hstep hp with hp | ⟨n, s, b', after, lag, hact, hpc, hcan, he⟩ |
      ⟨n, term, lo, -, -, -, rfl⟩
    · exact .inr (.inl ⟨p, hp, b, hb, hbx, hst⟩)
    · rw [he] at hb
      cases hb
      exact hown hact hpc hbx hst
    · cases hb
  · have hturn := turned_step hstep m
    unfold sess at ht
    generalize R'.nodes m = node at hturn ht ⊢
    cases hturn with
    | same | settle | advance => exact .inl (.inr (.inr ht))
    | boot => exact ht.elim
    | tends node hpa hsess =>
      rw [hsess] at ht
      exact .inl (.inr (.inr ht))
    | returned s b epoch after ok =>
      by_cases hs : s' = s
      · subst hs
        simp only [returnedNode, Function.update_self] at ht
        exact absurd ht (not_pcStamps_returned _ b after ok)
      · simp only [returnedNode, Function.update_of_ne hs] at ht
        exact .inl (.inr (.inr ht))
    | moved s a v lag hact ha hadm hmove =>
      by_cases hs : s' = s
      · subst hs
        simp only [movedNode, Node.set, Function.update_self] at ht
        exact (Move.stamps hmove ht).imp_left fun ht => .inr (.inr ht)
      · simp only [movedNode, Node.set, Function.update_of_ne hs] at ht
        exact .inl (.inr (.inr ht))

/-- A transaction that has just started has touched nothing. -/
theorem LockInv.not_touches_fresh (h : LockInv glob R) (hl : R.leader = some m)
    (hseed : R.seeded = true) (hnone : activeXid (R.sess m s') = none) :
    ¬ Touches R m s' (R.nodes m).pa.nextXid k := by
  have hacks := h.settled.marks.acks
  rintro (⟨-, y, t, hver, hxmax⟩ | ⟨p, hp, b, hb, hbx, -⟩ | ht)
  · exact absurd (h.xmax k y t hver)
      (not_lt.mpr (le_of_le_of_eq (hacks.xids.lead m hl hseed) hxmax.symm))
  · exact absurd (hacks.flight_lt hl hseed hp hb) (hbx ▸ lt_irrefl _)
  · unfold activeXid at hnone
    unfold pcStamps at ht
    split at ht <;> simp_all

theorem lockInv_step (h : LockInv glob R) (hok : SettledStep glob R act)
    (hstep : R.step glob act = some R') : LockInv glob R' := by
  have hset : SettledInv glob R' := settledInv_step h.settled hok hstep
  refine ⟨hset, fun k y t ht => h.xmax_step hok.sole.1.1 hstep ht,
    fun n s z ack hpc => h.releasing_step hstep hpc,
    fun n s hl hw => h.writing_step hok.orderly hstep hl hw, fun m s' x k hl' hx ht => ?_⟩
  have hactive := h.settled.marks.acks.xids.active_step hstep hx
  rcases leader_before hstep hl' with ⟨hl, hterm, -⟩ | ⟨rfl, rfl⟩
  · rcases h.touches_step hset.marks.acks hstep hx ht with ht | ⟨f, r, hpc, hw, hlock⟩
    · rcases hactive with ⟨hold, -⟩ | ⟨rfl, -, hseed, hnone, -⟩
      · obtain ⟨hs, hlock⟩ := h.locks m s' x k hl hold ht
        exact ⟨h.served_step hstep hl hl' hterm hs, h.holds_step hstep hl hl' hs hold hx hlock⟩
      · exact absurd ht (h.not_touches_fresh hl hseed hnone)
    · have hfx : f.xid = x := by
        simp only [activeXid, hpc, Option.some.injEq, reduceCtorEq, false_and, and_false,
          or_false] at hactive
        exact hactive.1
      have hs := h.writing m s' hl (by rw [hpc]; exact hw)
      exact ⟨h.served_step hstep hl hl' hterm hs, hfx ▸ hlock⟩
  · exact absurd ((hok.orderly s').symm.trans hx) (by simp)

theorem lockInv_initial (glob : GlobalView) : LockInv glob (Range.initial : Range Row) where
  settled := settledInv_initial glob
  xmax k y t ht := by
    rw [show (Range.initial : Range Row).tip = .empty from rfl, version_empty] at ht
    cases ht
  releasing _ _ _ _ hpc := nomatch hpc
  writing _ _ hl := nomatch hl
  locks _ _ _ _ hl := nomatch hl

end Steps

theorem lockInv_exec {acts : List (ClusterAct Row)} {C : MultiRangeCluster Row}
    (h : exec step initial acts = some C)
    (hok : Runs.Along step (OnRange SettledStep) .initial acts) (r : RangeId) :
    LockInv C.glob (C.ranges r) :=
  range_invariant (I := LockInv) (fun _ _ _ _ hI hs hstep => lockInv_step hI hs hstep)
    (fun _ _ g commit hI => { hI with settled := hI.settled.decide g commit })
    (lockInv_initial _) hok h

section Runs

def stagedInsertRun : List (ClusterAct ℕ) :=
  onRange 0 (openGate 0 false ++ calls 0 0 [.begin false, .join globalXidBase] ++
    stage 0 insertOne [])

/-- A committed row, and its UPDATE staged into a global transaction by another session, after the
election of node 0. -/
def stagedUpdateRun : List (ClusterAct ℕ) :=
  onRange 0 ((openGate 0 false).tail ++ stage 0 insertOne [] ++ calls 0 0 [.release] ++
    calls 0 1 [.begin false, .join globalXidBase] ++ stage 1 addOne [.next, .acquire 0, .recheck])

/-- Neither a drop nor an election, and the other conditions evaluated. -/
def settledCheck (glob : GlobalView) (R : Range ℕ) (a : RangeAct ℕ) : Bool :=
  soleCheck glob R a && decide (Unpassed R a) &&
    match a with
    | .call _ _ .drop _ | .elect _ => false
    | _ => true

theorem settledStep_of_check {glob : GlobalView} {R : Range ℕ} {a : RangeAct ℕ}
    (h : settledCheck glob R a = true) : SettledStep glob R a := by
  unfold settledCheck at h
  rw [Bool.and_eq_true, Bool.and_eq_true, decide_eq_true_eq] at h
  refine ⟨soleStep_of_check h.1.1, h.1.2, ?_⟩
  cases a with
  | call n s a =>
    cases a with
    | drop => cases h.2
    | _ => trivial
  | elect => cases h.2
  | _ => trivial

end Runs

end Crabgresql.Cluster
