import Crabgresql.Session

/-!
# The moves of a session on a replicated engine

Every step of a session, with its guard and its whole result, in `replicated`
mode: the store changes only when a commit returns. The invariants of a range
are checked move by move.
-/

namespace Crabgresql.Session

open Mvcc Kv Procarray Lockmgr Exec View

variable {Row : Type}

def Sess.returned (u : Sess Row) (b : Batch Row) (after : After) (ok : Bool) : Sess Row :=
  match after, ok with
  | .keep, true =>
    ⟨u.txn, u.globalXid, if u.globalXid.isSome then .preparing b.xid else .ready, u.err⟩
  | .keep, false => ⟨u.txn.fail, u.globalXid, .ready, u.err.or (some .unavailable)⟩
  | .enlist, true => ⟨u.txn, u.globalXid, .preparing b.xid, u.err⟩
  | .enlist, false => ⟨u.txn, u.globalXid, .ready, u.err.or (some .unavailable)⟩
  | .close ack, true => ⟨u.txn, u.globalXid, .finishing b.xid ack, u.err⟩
  | .close _, false => ⟨u.txn, u.globalXid, .finishing b.xid false, u.err.or (some .unavailable)⟩

def failPc (env : Env) (f : Frame Row) : Pc Row :=
  if f.autocommit then
    if f.work.isWrite then .committing (.record f.xid .aborted none) env.epoch (.close false)
    else .finishing f.xid false
  else .ready

/-- Calls that change which global transaction a session takes part in. -/
def Act.enlists : Act Row → Bool
  | .join _ | .drop => true
  | _ => false

inductive Move (env : Env) (v : View Row) : Act Row → View Row → Prop
  | still (a : Act Row) (txn : TxnState) (err : Option ExecError) (hpc : v.self.pc = .ready)
      (hx : txn.localXid = v.self.txn.localXid)
      (hw : ∀ x, txn.localXid = some x → txn.writtenRows = v.self.txn.writtenRows)
      (hplain : a.enlists = false)
      (hsnap : txn.holdsSnapshot = true →
        v.self.txn.holdsSnapshot = true ∨ a = .begin true ∧ v.self.txn = .idle) :
      Move env v a ⟨v.kv, v.pa, v.lm, v.seq, ⟨txn, v.self.globalXid, .ready, err⟩⟩
  | alloc (w : Work Row) (autocommit : Bool) (txn : TxnState) (hpc : v.self.pc = .ready)
      (hnone : v.self.txn.localXid = none)
      (htxn : if autocommit then txn = .idle else
        ∃ c, v.self.txn = .inTransaction c ∧ txn = .inTransaction { c with xid := some v.pa.nextXid }) :
      Move env v (.start w)
        ⟨v.kv, ⟨v.pa.nextXid + 1, ProcArray.register v.pa.running v.pa.nextXid⟩, v.lm, v.seq,
          ⟨txn, v.self.globalXid, .starting w v.pa.nextXid autocommit, none⟩⟩
  | resume (w : Work Row) (x : Xid) (c : TxnCtx) (hpc : v.self.pc = .ready)
      (htxn : v.self.txn = .inTransaction c) (hx : c.xid = some x) :
      Move env v (.start w)
        ⟨v.kv, v.pa, v.lm, v.seq, ⟨v.self.txn, v.self.globalXid, .starting w x false, none⟩⟩
  | read (w : Work Row) (x : Xid) (autocommit : Bool) (f : Frame Row) (txn : TxnState)
      (hpc : v.self.pc = .starting w x autocommit) (hx : f.xid = x) (hw : f.work = w)
      (hauto : f.autocommit = autocommit) (htodo : f.todo = []) (hchanges : f.changes = [])
      (hops : f.seqOps = [])
      (htxn : autocommit = true ∧ txn = v.self.txn ∨ autocommit = false ∧
        ∃ c S, v.self.txn = .inTransaction c ∧ txn = .inTransaction { c with snapshot := S }) :
      Move env v .takeSnapshot
        ⟨v.kv, v.pa, v.lm, v.seq, ⟨txn, v.self.globalXid, .scanning f, v.self.err⟩⟩
  | fill (f : Frame Row) (t : TableId) (rows : List (Except ExecError Row))
      (cs : List (Change Row)) (seq : SequenceManager) (n : ℕ) (hpc : v.self.pc = .scanning f)
      (hw : f.work = .insert t rows)
      (hcs : insertChanges t (v.seq.current v.kv t) rows = .ok cs)
      (hn : n = v.seq.current v.kv t + rows.length) (hseq : seq = v.seq.set t n) :
      Move env v .scan
        ⟨v.kv, v.pa, v.lm, seq, ⟨v.self.txn, v.self.globalXid,
          .looping { f with changes := cs, seqOps := [.counter (.seq t) n] }, v.self.err⟩⟩
  | walk (a : Act Row) (f : Frame Row) (todo : List (RowId × Row))
      (hpc : v.self.pc = .scanning f ∨ v.self.pc = .looping f ∨ ∃ r, v.self.pc = .locked f r)
      (hplain : a.enlists = false) :
      Move env v a
        ⟨v.kv, v.pa, v.lm, v.seq,
          ⟨v.self.txn, v.self.globalXid, .looping { f with todo := todo }, v.self.err⟩⟩
  | target (f : Frame Row) (todo : List (RowId × Row)) (r : RowId) (hpc : v.self.pc = .looping f) :
      Move env v .next
        ⟨v.kv, v.pa, v.lm, v.seq,
          ⟨v.self.txn, v.self.globalXid, .acquiring { f with todo := todo } r, v.self.err⟩⟩
  | grant (f : Frame Row) (r : RowId) (pick : Xid) (lm : LockMgr)
      (hpc : v.self.pc = .acquiring f r)
      (ho : v.lm.acquire (f.key r) f.work.lockMode f.xid pick = some (.granted lm)) :
      Move env v (.acquire pick)
        ⟨v.kv, v.pa, lm, v.seq, ⟨v.self.txn, v.self.globalXid, .locked f r, v.self.err⟩⟩
  | wait (f : Frame Row) (r : RowId) (pick : Xid) (lm : LockMgr)
      (hpc : v.self.pc = .acquiring f r)
      (ho : v.lm.acquire (f.key r) f.work.lockMode f.xid pick = some (.waiting lm)) :
      Move env v (.acquire pick) ⟨v.kv, v.pa, lm, v.seq, v.self⟩
  | fail (a : Act Row) (f : Frame Row) (e : ExecError) (lm : LockMgr) (seq : SequenceManager)
      (hpc : v.self.pc.frame = some f)
      (hlm : lm = v.lm ∨ ∃ r pick, v.self.pc = .acquiring f r ∧
        v.lm.acquire (f.key r) f.work.lockMode f.xid pick = some (.deadlock lm))
      (hplain : a.enlists = false)
      (hseq : seq = v.seq ∨ ∃ t n, v.seq.current v.kv t ≤ n ∧ seq = v.seq.set t n) :
      Move env v a
        ⟨v.kv, v.pa, lm, seq, ⟨v.self.txn.fail, v.self.globalXid, failPc env f, some e⟩⟩
  | take (f : Frame Row) (r : RowId) (found : Xid × Row) (c : Change Row)
      (hpc : v.self.pc = .locked f r)
      (hfound : evalPlanQual v.kv env.glob v.pa f.snapshot (f.key r) f.xid f.repeatableRead =
        .ok (some found))
      (hc : f.work.change (f.key r) found = .ok (some c)) :
      Move env v .recheck
        ⟨v.kv, v.pa, v.lm, v.seq, ⟨v.self.txn, v.self.globalXid,
          .looping { f with changes := f.changes ++ [c] }, v.self.err⟩⟩
  | done (f : Frame Row) (hpc : v.self.pc = .looping f) (hw : f.work.isWrite = false) :
      Move env v .propose
        ⟨v.kv, v.pa, v.lm, v.seq, ⟨v.self.txn, v.self.globalXid,
          if f.autocommit then .finishing f.xid false else .ready, v.self.err⟩⟩
  | submit (f : Frame Row) (hpc : v.self.pc = .looping f) (hw : f.work.isWrite = true)
      (hauto : f.autocommit = true) :
      Move env v .propose
        ⟨v.kv, v.pa, v.lm, v.seq, ⟨v.self.txn, v.self.globalXid,
          .committing ⟨f.xid, f.work, f.seqOps, f.changes, some .committed, some v.pa.nextXid⟩
            env.epoch (.close true), v.self.err⟩⟩
  | stage (f : Frame Row) (c : TxnCtx) (rows : List RowKey) (marker : Option Xid)
      (hpc : v.self.pc = .looping f) (hw : f.work.isWrite = true) (hauto : f.autocommit = false)
      (htxn : v.self.txn = .inTransaction c)
      (hrows : rows = c.writtenRows ++
        touched (f.seqOps ++ f.changes.flatMap (Change.rowOps f.xid)))
      (hmarker : marker = v.self.globalXid.map
        (effectiveGlobalXid v.kv env.glob (.inTransaction { c with writtenRows := rows }))) :
      Move env v .propose
        ⟨v.kv, v.pa, v.lm, v.seq, ⟨.inTransaction { c with writtenRows := rows }, marker,
          .committing ⟨f.xid, f.work, f.seqOps, f.changes, marker.map .prepared,
            some v.pa.nextXid⟩ env.epoch .keep, v.self.err⟩⟩
  | commit (x : Xid) (c : TxnCtx) (hpc : v.self.pc = .ready) (htxn : v.self.txn = .inTransaction c)
      (hx : c.xid = some x) :
      Move env v .commit
        ⟨v.kv, v.pa, v.lm, v.seq, ⟨.idle, v.self.globalXid,
          .committing (.record x .committed (some v.pa.nextXid)) env.epoch (.close true), none⟩⟩
  | abort (a : Act Row) (ha : a = .commit ∨ a = .rollback) (x : Xid) (hpc : v.self.pc = .ready)
      (hx : v.self.txn.localXid = some x) :
      Move env v a
        ⟨v.kv, v.pa, v.lm, v.seq, ⟨.idle, v.self.globalXid,
          .committing (.record x .aborted none) env.epoch (.close false), none⟩⟩
  | apply (ok : Bool) (b : Batch Row) (epoch : ℕ) (after : After)
      (hpc : v.self.pc = .committing b epoch after) :
      Move env v (.apply ok)
        ⟨if ok then applyBatch v.kv b.ops else v.kv, v.pa, v.lm, v.seq,
          v.self.returned b after ok⟩
  | prepared (x : Xid) (hpc : v.self.pc = .preparing x) :
      Move env v .finish
        ⟨v.kv, v.pa.finish x, v.lm, v.seq, ⟨v.self.txn, v.self.globalXid, .ready, v.self.err⟩⟩
  | finish (x : Xid) (ack : Bool) (hpc : v.self.pc = .finishing x ack) :
      Move env v .finish
        ⟨v.kv, v.pa.finish x, v.lm, v.seq,
          ⟨v.self.txn, v.self.globalXid, .releasing x ack, v.self.err⟩⟩
  | release (x : Xid) (ack : Bool) (hpc : v.self.pc = .releasing x ack) :
      Move env v .release
        ⟨v.kv, v.pa, v.lm.releaseAll x, v.seq,
          ⟨v.self.txn, v.self.globalXid, .ready, v.self.err⟩⟩
  | joinIdle (g : Xid) (hpc : v.self.pc = .ready) (hx : v.self.txn.localXid = none) :
      Move env v (.join g) ⟨v.kv, v.pa, v.lm, v.seq, ⟨v.self.txn, some g, .ready, none⟩⟩
  | join (g x eff : Xid) (hpc : v.self.pc = .ready) (hx : v.self.txn.localXid = some x)
      (heff : eff = effectiveGlobalXid v.kv env.glob v.self.txn g) :
      Move env v (.join g)
        ⟨v.kv, v.pa, v.lm, v.seq, ⟨v.self.txn, some eff,
          .committing (.record x (.prepared eff) none) env.epoch .enlist, none⟩⟩
  | leave (hpc : v.self.pc = .ready) (hx : v.self.txn.localXid = none) :
      Move env v .drop ⟨v.kv, v.pa, v.lm, v.seq, ⟨.idle, none, .ready, v.self.err⟩⟩
  | drop (x : Xid) (hpc : v.self.pc = .ready) (hx : v.self.txn.localXid = some x) :
      Move env v .drop
        ⟨v.kv, v.pa.finish x, v.lm.releaseAll x, v.seq, ⟨.idle, none, .ready, v.self.err⟩⟩

variable {env : Env} {v v' : View Row} {a : Act Row}

section Inversion

variable (hmode : env.cfg.mode = .replicated)

theorem move_begin {rr : Bool} (h : v.begin env rr = some v') : Move env v (.begin rr) v' := by
  obtain ⟨kv, pa, lm, seq, txn, gx, pc, err⟩ := v
  simp only [begin] at h
  split at h <;> cases h
  · exact .still _ _ _ rfl rfl (fun x hx => by cases hx) rfl fun hs => .inr ⟨congrArg _ hs, rfl⟩
  · exact .still _ _ _ rfl rfl (fun x _ => rfl) rfl .inl
  · exact .still _ _ _ rfl rfl (fun x _ => rfl) rfl .inl

theorem move_select (h : v.select = some v') : Move env v .select v' := by
  obtain ⟨kv, pa, lm, seq, txn, gx, pc, err⟩ := v
  simp only [select] at h
  split at h <;> cases h
  · exact .still _ _ _ rfl rfl (fun x _ => rfl) rfl .inl
  · refine .still _ _ _ rfl ?_ (fun x _ => ?_) rfl fun hs => .inl ?_
    · simp only [TxnState.localXid]
      split_ifs <;> rfl
    · simp only [TxnState.writtenRows]
      split_ifs <;> rfl
    · simp only [TxnState.holdsSnapshot] at hs ⊢
      split_ifs at hs <;> exact hs
  · exact .still _ _ _ rfl rfl (fun x _ => rfl) rfl .inl

theorem move_abortCtx {c : TxnCtx} (ha : a = .commit ∨ a = .rollback) (hpc : v.self.pc = .ready)
    (htxn : v.self.txn = .inTransaction c ∨ v.self.txn = .failed c) :
    Move env v a (v.abortCtx env c) := by
  obtain ⟨kv, pa, lm, seq, txn, gx, pc, err⟩ := v
  have hloc : txn.localXid = c.xid := by
    rcases htxn with rfl | rfl <;> rfl
  simp only at hpc
  subst hpc
  simp only [abortCtx]
  cases hx : c.xid with
  | none =>
    exact .still _ _ _ rfl (by rw [hloc, hx]; rfl) (fun x h => by cases h)
      (by rcases ha with rfl | rfl <;> rfl) nofun
  | some x => exact .abort _ ha x rfl (hloc.trans hx)

theorem move_rollback (h : v.rollback env = some v') : Move env v .rollback v' := by
  obtain ⟨kv, pa, lm, seq, txn, gx, pc, err⟩ := v
  simp only [rollback] at h
  split at h <;> cases h
  · exact .still _ _ _ rfl rfl (fun x _ => rfl) rfl .inl
  · exact move_abortCtx (.inr rfl) rfl (.inl rfl)
  · exact move_abortCtx (.inr rfl) rfl (.inr rfl)

theorem move_takeSnapshot (h : v.takeSnapshot env = some v') : Move env v .takeSnapshot v' := by
  obtain ⟨kv, pa, lm, seq, txn, gx, pc, err⟩ := v
  simp only [takeSnapshot, setPc] at h
  split at h <;> cases h
  · exact .read _ _ true _ _ rfl rfl rfl rfl rfl rfl rfl (.inl ⟨rfl, rfl⟩)
  · rename_i w x c
    refine .read _ _ false _ _ rfl rfl rfl rfl rfl rfl rfl (.inr ⟨rfl, c, ?_⟩)
    split_ifs
    · exact ⟨c.snapshot, rfl, rfl⟩
    · exact ⟨pa.snapshot, rfl, rfl⟩

theorem move_next (h : v.next env = some v') : Move env v .next v' := by
  obtain ⟨kv, pa, lm, seq, txn, gx, pc, err⟩ := v
  simp only [View.next] at h
  split at h
  · split at h
    · cases h
    · split at h <;> cases h
      · exact .fail _ _ _ _ _ rfl (.inl rfl) rfl (.inl rfl)
      · exact .walk _ _ _ (.inr (.inl rfl)) rfl
      · exact .target _ _ _ rfl
  · cases h

theorem move_acquire {pick : Xid} (h : v.acquire env pick = some v') :
    Move env v (.acquire pick) v' := by
  obtain ⟨kv, pa, lm, seq, txn, gx, pc, err⟩ := v
  simp only [acquire] at h
  split at h
  · split at h
    · cases h
    · rename_i ho
      cases h
      exact .grant _ _ _ _ rfl ho
    · rename_i ho
      cases h
      exact .wait _ _ _ _ rfl ho
    · rename_i ho
      cases h
      exact .fail _ _ _ _ _ rfl (.inr ⟨_, _, rfl, ho⟩) rfl (.inl rfl)
  · cases h

theorem move_recheck (h : v.recheck env = some v') : Move env v .recheck v' := by
  obtain ⟨kv, pa, lm, seq, txn, gx, pc, err⟩ := v
  simp only [recheck] at h
  split at h
  · rename_i f r
    split at h
    · cases h
      exact .fail _ _ _ _ _ rfl (.inl rfl) rfl (.inl rfl)
    · cases h
      exact .walk _ _ f.todo (.inr (.inr ⟨r, rfl⟩)) rfl
    · rename_i found hfound
      split at h
      · cases h
        exact .fail _ _ _ _ _ rfl (.inl rfl) rfl (.inl rfl)
      · cases h
        exact .walk _ _ f.todo (.inr (.inr ⟨r, rfl⟩)) rfl
      · rename_i c hc
        cases h
        exact .take _ _ found c rfl hfound hc
  · cases h

theorem move_finish (h : v.finish = some v') : Move env v .finish v' := by
  obtain ⟨kv, pa, lm, seq, txn, gx, pc, err⟩ := v
  simp only [finish] at h
  split at h <;> cases h
  · exact .prepared _ rfl
  · exact .finish _ _ rfl

theorem move_release (h : v.release = some v') : Move env v .release v' := by
  obtain ⟨kv, pa, lm, seq, txn, gx, pc, err⟩ := v
  simp only [release] at h
  split at h <;> cases h
  exact .release _ _ rfl

theorem move_join {g : Xid} (h : v.join env g = some v') : Move env v (.join g) v' := by
  obtain ⟨kv, pa, lm, seq, txn, gx, pc, err⟩ := v
  simp only [join] at h
  split at h
  · split at h
    · rename_i hx
      cases h
      exact .joinIdle _ rfl hx
    · rename_i x hx
      cases h
      exact .join _ _ _ rfl hx rfl
  · cases h

theorem move_drop (h : v.drop = some v') : Move env v .drop v' := by
  obtain ⟨kv, pa, lm, seq, txn, gx, pc, err⟩ := v
  simp only [drop] at h
  split at h
  · split at h
    · rename_i hx
      cases h
      exact .leave rfl hx
    · rename_i x hx
      cases h
      exact .drop _ rfl hx
  · cases h

include hmode

theorem foldNextXid_replicated (pa : ProcArray) : foldNextXid env pa = some pa.nextXid := by
  simp only [foldNextXid, hmode]

theorem move_commit (h : v.commit env = some v') : Move env v .commit v' := by
  obtain ⟨kv, pa, lm, seq, txn, gx, pc, err⟩ := v
  simp only [commit, foldNextXid_replicated hmode] at h
  split at h
  · cases h
    exact .still _ _ _ rfl rfl (fun x _ => rfl) rfl .inl
  · rename_i c
    split at h
    · rename_i x hx
      cases h
      exact .commit _ _ rfl rfl hx
    · rename_i hx
      cases h
      exact .still _ _ _ rfl hx.symm (fun x hx => by cases hx) rfl nofun
  · cases h
    exact move_abortCtx (.inl rfl) rfl (.inr rfl)
  · cases h

theorem move_start {w : Work Row} (h : v.start env w = some v') : Move env v (.start w) v' := by
  obtain ⟨kv, pa, lm, seq, txn, gx, pc, err⟩ := v
  simp only [start, ProcArray.beginWrite, hmode] at h
  split at h
  · cases h
    exact .alloc _ true _ rfl rfl rfl
  · rename_i c
    split at h
    · rename_i x hx
      cases h
      exact .resume _ _ _ rfl rfl hx
    · rename_i hx
      cases h
      exact .alloc _ false _ rfl hx ⟨c, rfl, rfl⟩
  · cases h
    exact .still _ _ _ rfl rfl (fun x _ => rfl) rfl .inl
  · cases h

theorem move_scan (h : v.scan env = some v') : Move env v .scan v' := by
  obtain ⟨kv, pa, lm, seq, txn, gx, pc, err⟩ := v
  simp only [scan] at h
  split at h
  · rename_i f
    split at h
    · cases h
      exact .fail _ _ _ _ _ rfl (.inl rfl) rfl (.inl rfl)
    · rename_i t rows hw
      split_ifs at h
      · cases h
        exact .walk _ _ f.todo (.inl rfl) rfl
      · simp only [SequenceManager.alloc, hmode] at h
        split at h
        · cases h
          exact .fail _ _ _ _ _ rfl (.inl rfl) rfl (.inr ⟨t, _, Nat.le_add_right _ _, rfl⟩)
        · rename_i cs hcs
          cases h
          exact .fill _ t rows cs _ _ rfl hw hcs rfl rfl
    · cases h
      exact .walk _ _ _ (.inl rfl) rfl
  · cases h

theorem move_propose (h : v.propose env = some v') : Move env v .propose v' := by
  obtain ⟨kv, pa, lm, seq, txn, gx, pc, err⟩ := v
  simp only [propose, foldNextXid_replicated hmode] at h
  split at h
  · rename_i f
    by_cases htodo : f.todo = []
    · cases hw : f.work.isWrite with
      | false =>
        simp [htodo, hw] at h
        cases h
        exact .done _ rfl hw
      | true =>
        cases hauto : f.autocommit with
        | true =>
          simp [htodo, hw, hauto] at h
          cases h
          exact .submit _ rfl hw hauto
        | false =>
          cases txn with
          | inTransaction c =>
            simp only [ne_eq, htodo, not_true_eq_false, if_false, hw, Bool.not_true,
              Bool.false_eq_true, hauto] at h
            cases h
            exact .stage f c _ _ rfl hw hauto rfl rfl rfl
          | idle | failed => simp [htodo, hw, hauto] at h
    · simp [htodo] at h
  · cases h

theorem move_apply {ok : Bool} (h : v.apply env ok = some v') : Move env v (.apply ok) v' := by
  obtain ⟨kv, pa, lm, seq, txn, gx, pc, err⟩ := v
  simp only [View.apply] at h
  split at h
  · rename_i b epoch after
    cases h
    have hkv : commitBatch env.cfg.mode kv b.ops = applyBatch kv b.ops := by
      simp only [commitBatch, hmode]
    have hself : ∀ u : Sess Row, u = Sess.returned ⟨txn, gx, .committing b epoch after, err⟩ b after ok →
        Move env ⟨kv, pa, lm, seq, ⟨txn, gx, .committing b epoch after, err⟩⟩ (.apply ok)
          ⟨if ok then commitBatch env.cfg.mode kv b.ops else kv, pa, lm, seq, u⟩ := by
      rintro u rfl
      rw [hkv]
      exact .apply ok b epoch after rfl
    apply hself
    cases after <;> cases ok <;> simp [Sess.returned]
  · cases h

theorem step_move (h : step env v a = some v') : Move env v a v' := by
  cases a with
  | begin => exact move_begin h
  | select => exact move_select h
  | commit => exact move_commit hmode h
  | rollback => exact move_rollback h
  | start => exact move_start hmode h
  | takeSnapshot => exact move_takeSnapshot h
  | scan => exact move_scan hmode h
  | next => exact move_next h
  | acquire => exact move_acquire h
  | recheck => exact move_recheck h
  | propose => exact move_propose hmode h
  | apply => exact move_apply hmode h
  | finish => exact move_finish h
  | release => exact move_release h
  | join => exact move_join h
  | drop => exact move_drop h

end Inversion

theorem Move.not_committing (hm : Move env v a v') (ha : ∀ ok, a ≠ .apply ok) {b : Batch Row}
    {epoch : ℕ} {after : After} : v.self.pc ≠ .committing b epoch after := by
  intro hpc'
  cases hm with
  | walk a f todo hpc =>
    rcases hpc with hpc | hpc | ⟨r, hpc⟩ <;> rw [hpc] at hpc' <;> cases hpc'
  | fail a f e lm seq hpc =>
    rw [hpc'] at hpc
    cases hpc
  | apply ok => exact absurd rfl (ha ok)
  | _ =>
    rename v.self.pc = _ => hpc
    rw [hpc] at hpc'
    cases hpc'

end Crabgresql.Session
