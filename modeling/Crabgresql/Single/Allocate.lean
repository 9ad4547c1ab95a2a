import Crabgresql.Single.Loop

/-!
# Allocation and locks

Starting a statement registers a fresh xid, an INSERT reserves fresh rowids, and
a row lock is requested, granted or refused.
-/

namespace Crabgresql.Single

open Mvcc Kv Procarray Lockmgr Exec Session Engine ProcArray

variable {Row : Type}
variable {T : Tracked Row} {s : SessionId} {v : View Row}

def Shared.beginWrite (sh : Shared Row) : Shared Row :=
  { sh with
    kv := sh.kv.setCounter .nextXid (sh.pa.nextXid + 1)
    pa := ⟨sh.pa.nextXid + 1, register sh.pa.running sh.pa.nextXid⟩ }

section BeginWrite

variable {sh : Shared Row}

theorem finished_beginWrite {y : Xid} (h : sh.pa.Finished y) : sh.beginWrite.pa.Finished y := by
  refine ⟨lt_trans h.1 (Nat.lt_succ_self _), ?_⟩
  change y ∉ register _ _
  rw [mem_register, not_or]
  exact ⟨ne_of_lt h.1, h.2⟩

theorem evolve_beginWrite : Evolve sh.pa.nextXid [] sh sh.beginWrite where
  finished _ := finished_beginWrite
  running _ _ hy := mem_register.mpr (.inr hy)
  clog _ _ := rfl
  committed _ hy := hy
  lock _ _ _ hl := hl
  rowid _ := le_rfl
  row _ := .same rfl fun _ => rfl

theorem sharedInv_beginWrite (h : SharedInv sh) : SharedInv sh.beginWrite where
  next_pos := Nat.succ_pos _
  zero := by
    refine ⟨?_, h.zero.2⟩
    change invalidXid ∉ register _ _
    rw [mem_register, not_or]
    exact ⟨(ne_of_gt h.next_pos).symm, h.zero.1⟩
  running_lt y hy := by
    rcases mem_register.mp hy with rfl | hy
    · exact Nat.lt_succ_self _
    · exact lt_trans (h.running_lt y hy) (Nat.lt_succ_self _)
  clog_lt y hy := lt_trans (h.clog_lt y hy) (Nat.lt_succ_self _)
  unprepared := h.unprepared
  sole := h.sole
  row k := by
    refine (h.row k).mono rfl (fun _ => rfl) ?_ ?_ ?_
    · intro y hd
      exact ⟨finished_beginWrite hd.1, hd.2⟩
    · intro y hs
      exact ⟨hs.1, finished_beginWrite hs.2⟩
    · intro y hy hr
      rcases mem_register.mp hr with rfl | hr
      · exact absurd (chain_lt h hy) (lt_irrefl _)
      · exact ⟨hr, id⟩
  hist_committed := h.hist_committed
  pend_open e he := ⟨mem_register.mpr (.inr (h.pend_open e he).1), (h.pend_open e he).2⟩
  rowid_lt := h.rowid_lt
  key_lt := h.key_lt
  valid := h.valid

theorem beginWrite_xid (h : SharedInv sh) : sh.pa.nextXid ∈ sh.beginWrite.pa.running ∧
      sh.beginWrite.kv.clogGet sh.pa.nextXid = .inProgress := by
  refine ⟨mem_register.mpr (.inl rfl), ?_⟩
  by_contra hne
  exact lt_irrefl _ (h.clog_lt _ hne)

end BeginWrite

theorem inv_start (h : Inv T) {w : Work Row} (hv : (T.view s).start env w = some v) :
    Inv (T.set s v T.sh.log) := by
  have hS := h.sess s
  rcases hu : T.sessions s with ⟨txn, g, pc, err⟩
  simp only [View.start, Tracked.view, hu] at hv
  rw [hu] at hS
  obtain rfl : g = none := hS.global
  have hfresh : ∀ (txn' : TxnState) (auto : Bool),
      SessInv T.sh.beginWrite (⟨txn', none, .starting w T.sh.pa.nextXid auto, none⟩ : Sess Row) →
      Inv (⟨T.sh.beginWrite, Function.update T.sessions s
        ⟨txn', none, .starting w T.sh.pa.nextXid auto, none⟩⟩ : Tracked Row) := by
    intro txn' auto hself
    refine h.step_of s T.sh.pa.nextXid [] (sharedInv_beginWrite h.shared) evolve_beginWrite
      (fun s' _ => activeXid_ne_next h s') (fun _ _ _ hk => by cases hk) hself ?_ ?_
    · intro s' _ y hy
      cases hy
      exact activeXid_ne_next h s'
    · intro s' _ k hk
      cases hk
  split at hv
  · cases hv
    refine hfresh .idle true (sessInv_running rfl (beginWrite_xid h.shared) ?_ rfl)
    rintro c (hc | hc)
    · cases hc
    · cases hc
  · rename_i c
    split at hv
    · rename_i x hx
      cases hv
      refine h.quiet s (sessInv_running rfl (hS.localXid hx) hS.block ⟨c, rfl, hx⟩) ?_ ?_
      · intro y hy
        cases hy
        rw [hu]
        exact hx
      · intro k hk
        cases hk
    · rename_i hx
      cases hv
      refine hfresh (.inTransaction { c with xid := some T.sh.pa.nextXid }) false
        (sessInv_running rfl (beginWrite_xid h.shared) ?_ ⟨_, rfl, rfl⟩)
      rintro c' (hc | hc) hrr
      · cases hc
        have hview := hS.block c (.inl rfl) hrr
        rw [hx] at hview
        have hview' := hview.evolve h.shared evolve_beginWrite (by simp) (by simp)
        refine ⟨hview'.finished, hview'.closed, ?_⟩
        intro k y hy hmem
        cases hy
        exact absurd (chain_lt h.shared hmem) (lt_irrefl _)
      · cases hc
  · cases hv
    exact h.quiet s (hS.withErr _) (fun _ hy => hu ▸ hy) (fun _ hk => hu ▸ hk)
  · cases hv

def Shared.alloc (sh : Shared Row) (t : TableId) (n : ℕ) : Shared Row :=
  { sh with
    kv := sh.kv.setCounter (.seq t) (sh.nextRowid t + n)
    seq := ⟨Function.update sh.seq.next t (some (sh.nextRowid t + n))⟩ }

section Alloc

variable {sh : Shared Row} {t : TableId} {n : ℕ}

theorem nextRowid_alloc (t' : TableId) :
    (sh.alloc t n).nextRowid t' = if t' = t then sh.nextRowid t + n else sh.nextRowid t' := by
  by_cases ht : t' = t
  · subst ht
    simp [Shared.nextRowid, Shared.alloc, SequenceManager.current]
  · simp [Shared.nextRowid, Shared.alloc, SequenceManager.current, SequenceManager.readSeqKv, ht]

theorem nextRowid_le_alloc (t' : TableId) : sh.nextRowid t' ≤ (sh.alloc t n).nextRowid t' := by
  rw [nextRowid_alloc]
  split_ifs with ht
  · subst ht
    exact Nat.le_add_right _ _
  · exact le_rfl

theorem evolve_alloc (x : Xid) : Evolve x [] sh (sh.alloc t n) where
  finished _ hy := hy
  running _ _ hy := hy
  clog _ _ := rfl
  committed _ hy := hy
  lock _ _ _ hl := hl
  rowid := nextRowid_le_alloc
  row _ := .same rfl fun _ => rfl

theorem sharedInv_alloc (h : SharedInv sh) : SharedInv (sh.alloc t n) where
  next_pos := h.next_pos
  zero := h.zero
  running_lt := h.running_lt
  clog_lt := h.clog_lt
  unprepared := h.unprepared
  sole := h.sole
  row k := (h.row k).mono rfl (fun _ => rfl) (fun _ hd => hd) (fun _ hs => hs)
    fun _ _ hr => ⟨hr, id⟩
  hist_committed := h.hist_committed
  pend_open := h.pend_open
  rowid_lt k x v hv := lt_of_lt_of_le (h.rowid_lt k x v hv) (nextRowid_le_alloc _)
  key_lt e he := lt_of_lt_of_le (h.key_lt e he) (nextRowid_le_alloc _)
  valid := h.valid

theorem pending_alloc (h : SharedInv sh) {x : Xid} {cover : Option Snapshot} {r : ℕ} {row : Row}
    (hge : sh.nextRowid t ≤ r) (hlt : r < sh.nextRowid t + n) :
    Pending (sh.alloc t n) x cover (.insert (t, r) row) := by
  refine ⟨?_, ?_, ?_⟩
  · change (sh.log.rowLog (t, r)) = []
    rw [History.rowLog, List.filter_eq_nil_iff]
    intro e he hkey
    have hk : e.key = (t, r) := by simpa using hkey
    have hlt' := h.key_lt e he
    rw [hk] at hlt'
    exact absurd hlt' (not_lt.mpr hge)
  · intro y
    change sh.kv.version (t, r) y = none
    cases hv : sh.kv.version (t, r) y with
    | none => rfl
    | some => exact absurd (h.rowid_lt _ _ _ hv) (not_lt.mpr hge)
  · rw [nextRowid_alloc]
    simpa using hlt

end Alloc

theorem insertKeys_lt {sh : Shared Row} {x : Xid} {cover : Option Snapshot} {w : Work Row}
    {cs : List (Change Row)} (h : ChangesInv sh x cover w cs) {k : RowKey}
    (hk : k ∈ insertKeys cs) : k.2 < sh.nextRowid k.1 := by
  obtain ⟨c, hc, hck⟩ := List.mem_filterMap.mp hk
  cases c with
  | insert =>
    cases hck
    exact (h.pending _ hc).2.2
  | update | delete => cases hck

theorem SessInv.insertKeys_lt {sh : Shared Row} {u : Sess Row} (h : SessInv sh u) {k : RowKey}
    (hk : k ∈ insertKeys (pendingChanges u)) : k.2 < sh.nextRowid k.1 := by
  have hpc := h.pc
  unfold pendingChanges at hk
  cases hu : u.pc with
  | looping | acquiring =>
    rw [hu] at hk hpc
    exact Single.insertKeys_lt hpc.changes hk
  | locked =>
    rw [hu] at hk hpc
    exact Single.insertKeys_lt hpc.1.changes hk
  | committing b epoch after =>
    rw [hu] at hk hpc
    have hafter := hpc.after
    cases after with
    | keep =>
      obtain ⟨-, c, -, -, hcs⟩ := hafter
      exact Single.insertKeys_lt hcs hk
    | close => exact Single.insertKeys_lt hafter.2.2 hk
    | enlist => exact hafter.elim
  | _ =>
    rw [hu] at hk
    cases hk

/-- A step of the session that runs `x`: it stays with `x` or gives it up, and a row that it comes
to create is its own or above the next rowid. -/
theorem Inv.step_own (h : Inv T) {x : Xid} {ins : List RowKey} {sh : Shared Row} {self : Sess Row}
    (hx : activeXid (T.sessions s) = some x) (hsh : SharedInv sh) (hE : Evolve x ins T.sh sh)
    (hins : ∀ k ∈ ins, k ∈ insertKeys (pendingChanges (T.sessions s))) (hself : SessInv sh self)
    (hactive : ∀ y, activeXid self = some y → x = y)
    (hpend : ∀ k ∈ insertKeys (pendingChanges self),
      k ∈ insertKeys (pendingChanges (T.sessions s)) ∨ T.sh.nextRowid k.1 ≤ k.2) :
    Inv ⟨sh, Function.update T.sessions s self⟩ := by
  have hother : ∀ s', s' ≠ s → activeXid (T.sessions s') ≠ some x :=
    fun s' hs hx' => hs (h.uniq s' s x hx' hx)
  have hapart : ∀ s', s' ≠ s → ∀ k ∈ insertKeys (pendingChanges (T.sessions s)),
      k ∉ insertKeys (pendingChanges (T.sessions s')) :=
    fun s' hs k hk hk' => hs (h.apart s' s k hk' hk)
  refine h.step_of s x ins hsh hE hother (fun s' hs k hk => hapart s' hs k (hins k hk)) hself ?_ ?_
  · intro s' hs y hy
    rw [← hactive y hy]
    exact hother s' hs
  · intro s' hs k hk hk'
    rcases hpend k hk with hown | hge
    · exact hapart s' hs k hown hk'
    · exact absurd ((h.sess s').insertKeys_lt hk') (not_lt.mpr hge)

theorem sharedInv_locks {sh : Shared Row} {lm : LockMgr} (h : SharedInv sh) (hsole : lm.Sole)
    (hkept : ∀ k, ∀ y ∈ sh.pa.running, sh.lm.HoldsExclusive k y → lm.HoldsExclusive k y) :
    SharedInv { sh with lm := lm } where
  next_pos := h.next_pos
  zero := h.zero
  running_lt := h.running_lt
  clog_lt := h.clog_lt
  unprepared := h.unprepared
  sole := hsole
  row k := (h.row k).mono rfl (fun _ => rfl) (fun _ hd => hd) (fun _ hs => hs)
    fun y _ hr => ⟨hr, hkept k y hr⟩
  hist_committed := h.hist_committed
  pend_open := h.pend_open
  rowid_lt := h.rowid_lt
  key_lt := h.key_lt
  valid := h.valid

theorem evolve_locks {sh : Shared Row} {lm : LockMgr} {x : Xid}
    (hkept : ∀ k y, y ≠ x → sh.lm.HoldsExclusive k y → lm.HoldsExclusive k y) :
    Evolve x [] sh { sh with lm := lm } :=
  ⟨fun _ hy => hy, fun _ _ hy => hy, fun _ _ => rfl, fun _ hy => hy, hkept, fun _ => le_rfl,
    fun _ => .same rfl fun _ => rfl⟩

theorem inv_scan (h : Inv T) (hv : (T.view s).scan env = some v) : Inv (T.set s v T.sh.log) := by
  have hS := h.sess s
  rcases hu : T.sessions s with ⟨txn, g, pc, err⟩
  simp only [View.scan, View.setPc, Tracked.view, hu] at hv
  rw [hu] at hS
  obtain rfl : g = none := hS.global
  split at hv
  · rename_i f
    obtain ⟨hf, htodo, hnil⟩ : FrameInv T.sh txn f [] ∧ f.todo = [] ∧ f.changes = [] := hS.pc
    have hxid : f.xid ∈ T.sh.pa.running ∧ T.sh.kv.clogGet f.xid = .inProgress :=
      ⟨hS.running _ rfl, hS.undecided _ rfl rfl⟩
    split at hv
    · cases hv
      exact inv_fail_of h hu hf rfl rfl
    · rename_i t rows hwork
      split_ifs at hv with hrows
      · cases hv
        refine h.quiet_frame hu rfl rfl rfl ?_ ?_
        · intro k hk
          simp [pendingChanges, insertKeys, hnil] at hk
        · change FrameInv T.sh txn f (f.todo.map Prod.fst)
          rw [htodo]
          exact hf
      · -- the block starts at the next rowid; nobody else can hold a row in it
        have hactive : activeXid (T.sessions s) = some f.xid := by rw [hu]; rfl
        have hE : Evolve f.xid [] T.sh (T.sh.alloc t rows.length) := evolve_alloc f.xid
        have hblock : ∀ c, txn = .inTransaction c ∨ txn = .failed c → c.repeatableRead = true →
            ViewInv (T.sh.alloc t rows.length) c.snapshot c.xid := by
          intro c hc hrr
          have hview := hS.block c hc hrr
          exact ⟨hview.finished, hview.closed, hview.covers⟩
        split at hv
        · rename_i e hins
          cases hv
          obtain ⟨hself, hact, hpend⟩ := sessInv_fail (v := ⟨(T.sh.alloc t rows.length).kv, T.sh.pa,
            T.sh.lm, (T.sh.alloc t rows.length).seq, ⟨txn, none, .scanning f, err⟩⟩) (e := e) rfl
            hf.block hblock hxid
          refine h.step_own hactive (sharedInv_alloc h.shared) hE (by simp) hself ?_ ?_
          · intro y hy
            exact Option.some.inj (hact.symm.trans hy)
          · intro k hk
            exact absurd hk (notMem_insertKeys hpend)
        · rename_i cs hins
          cases hv
          obtain ⟨hnd, hall⟩ := insertChanges_ok hins
          have hcs : ChangesInv (T.sh.alloc t rows.length) f.xid
              (coverOf f.repeatableRead f.snapshot) f.work cs := by
            refine ⟨?_, hnd, ?_⟩
            · intro c hc
              obtain ⟨r, row, rfl, hge, hlt, -⟩ := hall c hc
              exact pending_alloc h.shared hge hlt
            · intro c hc
              obtain ⟨r, row, rfl, -, -, hmem⟩ := hall c hc
              simp only [Entry.Valid, hwork]
              exact hmem
          refine h.step_own hactive (sharedInv_alloc h.shared) hE (by simp)
            (sessInv_running rfl hxid hblock ?_) (fun y => Option.some.inj) ?_
          · change FrameInv _ _ _ (f.todo.map Prod.fst)
            rw [htodo]
            exact ⟨⟨hf.view.finished, hf.view.closed, hf.view.covers⟩, hf.block, rfl, by simp,
              List.nodup_nil, by simp, hcs⟩
          · intro k hk
            obtain ⟨c, hc, hck⟩ := List.mem_filterMap.mp hk
            obtain ⟨r, row, rfl, hge, -, -⟩ := hall c hc
            cases hck
            exact .inr hge
    · cases hv
      exact inv_scanRows h hu
  · cases hv

theorem inv_acquire (h : Inv T) {pick : Xid} (hv : (T.view s).acquire env pick = some v) :
    Inv (T.set s v T.sh.log) := by
  have hS := h.sess s
  rcases hu : T.sessions s with ⟨txn, g, pc, err⟩
  simp only [View.acquire, View.setPc, Tracked.view, hu] at hv
  rw [hu] at hS
  obtain rfl : g = none := hS.global
  split at hv
  · rename_i f r
    have hf : FrameInv T.sh txn f (r :: f.todo.map Prod.fst) := hS.pc
    have hxid : f.xid ∈ T.sh.pa.running ∧ T.sh.kv.clogGet f.xid = .inProgress :=
      ⟨hS.running _ rfl, hS.undecided _ rfl rfl⟩
    have hactive : activeXid (T.sessions s) = some f.xid := by rw [hu]; rfl
    have hpend : ∀ k ∈ insertKeys f.changes,
        k ∈ insertKeys (pendingChanges (T.sessions s)) ∨ T.sh.nextRowid k.1 ≤ k.2 :=
      fun k hk => .inl (hu ▸ hk)
    -- whatever the outcome, locks held so far are kept
    have hshared : ∀ {o : Outcome}, T.sh.lm.acquire (f.key r) f.work.lockMode f.xid pick = some o →
        SharedInv { T.sh with lm := o.mgr } := fun ho =>
      sharedInv_locks h.shared (LockMgr.acquire_sole h.shared.sole ho)
        fun _ _ _ => LockMgr.acquire_holdsExclusive ho
    have hE : ∀ {o : Outcome}, T.sh.lm.acquire (f.key r) f.work.lockMode f.xid pick = some o →
        Evolve f.xid [] T.sh { T.sh with lm := o.mgr } := fun ho =>
      evolve_locks fun _ _ _ => LockMgr.acquire_holdsExclusive ho
    have hframe : ∀ {o : Outcome}, T.sh.lm.acquire (f.key r) f.work.lockMode f.xid pick = some o →
        FrameInv { T.sh with lm := o.mgr } txn f (r :: f.todo.map Prod.fst) := by
      intro o ho
      refine ⟨⟨hf.view.finished, hf.view.closed, hf.view.covers⟩, hf.block, hf.seqOps, hf.target,
        hf.nodup, hf.apart, ?_, hf.changes.nodup, hf.changes.valid⟩
      intro c hc
      have hp := hf.changes.pending c hc
      have hcurrent : ∀ {k cx cur}, Current T.sh f.xid (coverOf f.repeatableRead f.snapshot) k cx cur →
          Current { T.sh with lm := o.mgr } f.xid (coverOf f.repeatableRead f.snapshot) k cx cur :=
        fun hcur => ⟨LockMgr.acquire_holdsExclusive ho hcur.lock, hcur.last,
          hcur.image, hcur.others, hcur.covered⟩
      cases c with
      | insert => exact hp
      | update | delete => exact hcurrent hp
    have hblock : ∀ {lm : LockMgr} (c : TxnCtx), txn = .inTransaction c ∨ txn = .failed c →
        c.repeatableRead = true → ViewInv { T.sh with lm := lm } c.snapshot c.xid := by
      intro lm c hc hrr
      have hview := hS.block c hc hrr
      exact ⟨hview.finished, hview.closed, hview.covers⟩
    split at hv
    · cases hv
    · rename_i lm hacq
      cases hv
      refine h.step_own hactive (hshared hacq) (hE hacq) (by simp)
        (sessInv_running rfl hxid hblock ⟨hframe hacq, ?_⟩) (fun y => Option.some.inj) hpend
      intro hm
      rw [hm] at hacq
      exact LockMgr.acquire_exclusive hacq
    · rename_i lm hacq
      cases hv
      exact h.step_own hactive (hshared hacq) (hE hacq) (by simp)
        (sessInv_running rfl hxid hblock (hframe hacq)) (fun y => Option.some.inj) hpend
    · rename_i lm hacq
      cases hv
      obtain ⟨hself, hact, hnil⟩ := sessInv_fail (v := ⟨T.sh.kv, T.sh.pa, lm, T.sh.seq,
        ⟨txn, none, .acquiring f r, err⟩⟩) (e := .deadlock) rfl hf.block (@hblock lm) hxid
      refine h.step_own hactive (hshared hacq) (hE hacq) (by simp) hself ?_ ?_
      · intro y hy
        exact Option.some.inj (hact.symm.trans hy)
      · intro k hk
        exact absurd hk (notMem_insertKeys hnil)
  · cases hv

end Crabgresql.Single
