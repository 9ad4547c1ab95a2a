import Crabgresql.Single.Statements

/-!
# The row loop of a statement

The scan, the filter, the recheck under the lock and the proposal of the batch
keep the invariant of the session that takes them.
-/

namespace Crabgresql.Single

open Mvcc Kv Procarray Lockmgr Exec Session Engine List

variable {Row : Type}
variable {txn : TxnState} {T : Tracked Row} {s : SessionId} {f : Frame Row} {ts : List RowId}
  {sh : Shared Row} {v : View Row}

theorem FrameInv.subset {ts' : List RowId} (h : FrameInv sh txn f ts) (hsub : ts'.Sublist ts) :
    FrameInv sh txn f ts' :=
  ⟨h.view, h.block, h.seqOps, fun r hr => h.target r (hsub.subset hr), h.nodup.sublist hsub,
    fun r hr => h.apart r (hsub.subset hr), h.changes⟩

theorem FrameInv.withTodo (h : FrameInv sh txn f ts) (todo : List (RowId × Row)) :
    FrameInv sh txn { f with todo := todo } ts :=
  ⟨h.view, h.block, h.seqOps, h.target, h.nodup, h.apart, h.changes⟩

theorem Inv.quiet_frame (h : Inv T) {pc pc' : Pc Row} {e : Option ExecError} {x : Xid}
    (hu : T.sessions s = ⟨txn, none, pc, e⟩)
    (hactive : activeXid (⟨txn, none, pc, e⟩ : Sess Row) = some x)
    (hfin : isFinishing (⟨txn, none, pc, e⟩ : Sess Row) = false)
    (hactive' : activeXid (⟨txn, none, pc', e⟩ : Sess Row) = some x)
    (hpend : ∀ k ∈ insertKeys (pendingChanges (⟨txn, none, pc', e⟩ : Sess Row)),
      k ∈ insertKeys (pendingChanges (⟨txn, none, pc, e⟩ : Sess Row)))
    (hpc : PcInv T.sh txn pc') :
    Inv (T.set s { T.view s with self := ⟨txn, none, pc', e⟩ } T.sh.log) := by
  have hS := h.sess s
  rw [hu] at hS
  refine h.quiet s (sessInv_running hactive'
    ⟨hS.running x hactive, hS.undecided x hactive hfin⟩ hS.block hpc) ?_ ?_
  · intro y hy
    rw [hu, hactive]
    exact hactive'.symm.trans hy
  · intro k hk
    rw [hu]
    exact hpend k hk

theorem inv_fail_of (h : Inv T) {pc : Pc Row} {err : Option ExecError} {e : ExecError}
    (hu : T.sessions s = ⟨txn, none, pc, err⟩) (hf : FrameInv T.sh txn f ts)
    (hactive : activeXid (⟨txn, none, pc, err⟩ : Sess Row) = some f.xid)
    (hfin : isFinishing (⟨txn, none, pc, err⟩ : Sess Row) = false) :
    Inv (T.set s ((⟨T.sh.kv, T.sh.pa, T.sh.lm, T.sh.seq, ⟨txn, none, pc, err⟩⟩ : View Row).fail
      env f e) T.sh.log) := by
  rw [← hu] at hactive hfin ⊢
  have htxn : txn = (T.sessions s).txn := by rw [hu]
  rw [htxn] at hf
  exact inv_fail h hf hactive hfin

theorem inv_scanRows (h : Inv T) {e : Option ExecError}
    (hu : T.sessions s = ⟨txn, none, .scanning f, e⟩) : Inv (T.set s { T.view s with
      self := ⟨txn, none, .looping { f with
        todo := (scanLive T.sh.kv env.glob f.gsnap f.snapshot (some f.xid) f.work.table).map
          fun e => (e.1, e.2.2) }, e⟩ } T.sh.log) := by
  have hS := h.sess s
  rw [hu] at hS
  obtain ⟨hf, -, hnil⟩ : FrameInv T.sh txn f [] ∧ f.todo = [] ∧ f.changes = [] := hS.pc
  refine h.quiet_frame hu rfl rfl rfl ?_ ?_
  · intro k hk
    simp [pendingChanges, insertKeys, hnil] at hk
  · have hmap : ∀ l : List (RowId × Xid × Row),
        (l.map fun e => (e.1, e.2.2)).map Prod.fst = l.map Prod.fst := by
      intro l
      rw [List.map_map]
      rfl
    refine ⟨hf.view, hf.block, hf.seqOps, ?_, ?_, ?_, hf.changes⟩
    · intro r hr
      rw [hmap] at hr
      obtain ⟨v, hv, rfl⟩ := List.mem_map.mp hr
      exact scanLive_target h.shared hf.view (hS.running _ rfl) hv
    · rw [hmap]
      exact (rowids_nodup _ _).sublist (scanLive_rowids_sublist _ _ _ _ _ _)
    · intro r _ c hc
      have hc' : c ∈ f.changes := hc
      rw [hnil] at hc'
      cases hc'

theorem inv_next (h : Inv T) (hv : (T.view s).next env = some v) : Inv (T.set s v T.sh.log) := by
  have hS := h.sess s
  rcases hu : T.sessions s with ⟨txn, g, pc, err⟩
  simp only [View.next, View.setPc, Tracked.view, hu] at hv
  rw [hu] at hS
  obtain rfl : g = none := hS.global
  split at hv
  · rename_i f
    have hf : FrameInv T.sh txn f (f.todo.map Prod.fst) := hS.pc
    split at hv
    · cases hv
    · rename_i r row rest htodo
      rw [htodo, map_cons] at hf
      split at hv
      · cases hv
        exact inv_fail_of h hu hf rfl rfl
      · cases hv
        refine h.quiet_frame hu rfl rfl rfl (fun _ hk => hk) ?_
        exact (hf.subset (sublist_cons_self r _)).withTodo rest
      · cases hv
        exact h.quiet_frame hu rfl rfl rfl (fun _ hk => hk) (hf.withTodo rest)
  · cases hv

theorem FrameInv.addChange {r : RowId} {found : Xid × Row} {c : Change Row}
    (h : FrameInv sh txn f (r :: ts)) (hcur : f.work.lockMode = .exclusive →
      Current sh f.xid (coverOf f.repeatableRead f.snapshot) (f.key r) found.1 found.2)
    (hc : f.work.change (f.key r) found = .ok (some c)) :
    FrameInv sh txn { f with changes := f.changes ++ [c] } ts ∧
      insertKeys (f.changes ++ [c]) = insertKeys f.changes := by
  have hkey : c.key = f.key r := by
    rcases Work.change_some hc with ⟨_, _, _, _, _, _, rfl⟩ | ⟨_, _, _, rfl⟩ <;> rfl
  have hpending : Pending sh f.xid (coverOf f.repeatableRead f.snapshot) c := by
    rcases Work.change_some hc with ⟨_, _, _, _, hw, _, rfl⟩ | ⟨_, _, hw, rfl⟩
    · exact hcur (by rw [hw]; rfl)
    · exact hcur (by rw [hw]; rfl)
  have hvalid : Entry.Valid ⟨f.xid, f.work, c⟩ := by
    rcases Work.change_some hc with ⟨t, flt, set, next, hw, hs, rfl⟩ | ⟨t, flt, hw, rfl⟩
    · simp only [Entry.Valid, hw]
      exact hs
    · simp only [Entry.Valid, hw]
  have hnd := nodup_cons.mp h.nodup
  refine ⟨⟨h.view, h.block, h.seqOps, ?_, hnd.2, ?_, ?_, ?_, ?_⟩, ?_⟩
  · intro r' hr'
    exact h.target r' (mem_cons_of_mem r hr')
  · intro r' hr' c' hc'
    change c' ∈ f.changes ++ [c] at hc'
    rcases mem_append.mp hc' with hold | hnew
    · exact h.apart r' (mem_cons_of_mem r hr') c' hold
    · rw [mem_singleton] at hnew
      subst hnew
      rw [hkey]
      intro heq
      have hr : r = r' := congrArg Prod.snd heq
      exact hnd.1 (hr ▸ hr')
  · intro c' hc'
    rcases mem_append.mp hc' with hold | hnew
    · exact h.changes.pending c' hold
    · rw [mem_singleton] at hnew
      subst hnew
      exact hpending
  · change ((f.changes ++ [c]).map Change.key).Nodup
    rw [map_append, nodup_append]
    refine ⟨h.changes.nodup, by simp, ?_⟩
    intro k hk k' hk' heq
    obtain ⟨c', hc', rfl⟩ := List.mem_map.mp hk
    have hk'' : k' = c.key := by simpa using hk'
    exact h.apart r (by simp) c' hc' (by rw [heq, hk'', hkey])
  · intro c' hc'
    rcases mem_append.mp hc' with hold | hnew
    · exact h.changes.valid c' hold
    · rw [mem_singleton] at hnew
      subst hnew
      exact hvalid
  · rw [insertKeys, filterMap_append]
    rcases Work.change_some hc with ⟨_, _, _, _, _, _, rfl⟩ | ⟨_, _, _, rfl⟩ <;> simp [insertKeys]

theorem inv_recheck (h : Inv T) (hv : (T.view s).recheck env = some v) :
    Inv (T.set s v T.sh.log) := by
  have hS := h.sess s
  rcases hu : T.sessions s with ⟨txn, g, pc, err⟩
  simp only [View.recheck, View.setPc, Tracked.view, hu] at hv
  rw [hu] at hS
  obtain rfl : g = none := hS.global
  split at hv
  · rename_i f r
    obtain ⟨hf, hlock⟩ : FrameInv T.sh txn f (r :: f.todo.map Prod.fst) ∧
      (f.work.lockMode = .exclusive → T.sh.lm.HoldsExclusive (f.key r) f.xid) := hS.pc
    have hrest := hf.subset (sublist_cons_self r _)
    split at hv
    · cases hv
      exact inv_fail_of h hu hf rfl rfl
    · cases hv
      exact h.quiet_frame hu rfl rfl rfl (fun _ hk => hk) hrest
    · rename_i found hfound
      split at hv
      · cases hv
        exact inv_fail_of h hu hf rfl rfl
      · cases hv
        exact h.quiet_frame hu rfl rfl rfl (fun _ hk => hk) hrest
      · rename_i c hc
        cases hv
        have hcur := fun hm => evalPlanQual_current h.shared (hlock hm) (hS.running _ rfl)
          hf.view.finished (hf.target r (by simp)) hfound
        obtain ⟨hf', hins⟩ := hf.addChange hcur hc
        refine h.quiet_frame hu rfl rfl rfl ?_ hf'
        intro k hk
        change k ∈ insertKeys (f.changes ++ [c]) at hk
        rw [hins] at hk
        exact hk
  · cases hv

theorem inv_propose (h : Inv T) (hv : (T.view s).propose env = some v) :
    Inv (T.set s v T.sh.log) := by
  have hS := h.sess s
  rcases hu : T.sessions s with ⟨txn, g, pc, err⟩
  simp only [View.propose, View.setPc, Tracked.view, hu] at hv
  rw [hu] at hS
  obtain rfl : g = none := hS.global
  split at hv
  · rename_i f
    have hf : FrameInv T.sh txn f (f.todo.map Prod.fst) := hS.pc
    have hxid : f.xid ∈ T.sh.pa.running ∧ T.sh.kv.clogGet f.xid = .inProgress :=
      ⟨hS.running _ rfl, hS.undecided _ rfl rfl⟩
    have hblock := hf.block
    unfold Block at hblock
    by_cases htodo : f.todo = []
    · simp only [htodo, ne_eq, not_true_eq_false, if_false] at hv
      cases hw : f.work.isWrite with
      | false =>
        simp only [hw, Bool.not_false, if_true] at hv
        cases hauto : f.autocommit with
        | true =>
          simp only [hauto, if_true] at hv hblock
          cases hv
          obtain ⟨rfl, -⟩ := hblock
          refine h.quiet s ⟨rfl, ?_, ?_, hS.block, rfl⟩ ?_ ?_
          · intro y hy
            cases hy
            exact hxid.1
          · intro y _ hfin
            cases hfin
          · intro y hy
            rw [hu]
            exact hy
          · intro k hk
            cases hk
        | false =>
          simp only [hauto, Bool.false_eq_true, if_false] at hv hblock
          cases hv
          obtain ⟨c, rfl, hx, -⟩ := hblock
          refine h.quiet s (sessInv_ready ?_ hS.block) ?_ ?_
          · intro y hy
            have hy' : some y = some f.xid := (hy.symm.trans hx :)
            cases hy'
            exact hxid
          · intro y hy
            rw [hu]
            exact (hx.symm.trans hy :)
          · intro k hk
            cases hk
      | true =>
        simp only [hw, Bool.not_true, Bool.false_eq_true, if_false] at hv
        cases hauto : f.autocommit with
        | true =>
          simp only [hauto, if_true] at hv hblock
          cases hv
          obtain ⟨rfl, hrr⟩ := hblock
          refine h.quiet_frame hu rfl rfl rfl (fun _ hk => hk) ?_
          have hcs := hf.changes
          rw [hrr] at hcs
          exact ⟨hf.seqOps, rfl, rfl, .inl rfl, hcs⟩
        | false =>
          simp only [hauto, Bool.false_eq_true, if_false] at hv hblock
          obtain ⟨c, rfl, hx, hrr, hsnap⟩ := hblock
          cases hv
          have hcs := hf.changes
          rw [← hrr, ← hsnap] at hcs
          refine h.quiet s (sessInv_running rfl hxid ?_ ?_) ?_ ?_
          · rintro c' (hc | hc) hc'
            · cases hc
              exact hS.block c (.inl rfl) hc'
            · cases hc
          · exact ⟨hf.seqOps, rfl, rfl, _, rfl, hx, hcs⟩
          · intro y hy
            rw [hu]
            exact hy
          · intro k hk
            rw [hu]
            exact hk
    · simp [htodo] at hv
  · cases hv

end Crabgresql.Single
