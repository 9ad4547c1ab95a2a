import Crabgresql.Single.Invariant

/-!
# What a step of one transaction leaves to the others

`Evolve x ins a b` is the effect on the shared state of a step of transaction
`x` as any other session may rely on it; `ins` are the rows that the step
creates. The session invariants of the others are stable under it.
-/

namespace Crabgresql.Single

open Mvcc Kv Procarray Lockmgr Exec Session Engine Function List Chronicle

variable {Row : Type}
variable {k : RowKey} {self : Sess Row} {S : Snapshot} {cover : Option Snapshot}

/-- The row is unchanged, or `x` adds a change to it, or the changes of `x`, the last in the
chain, are struck out. -/
inductive RowStep (x : Xid) (ins : List RowKey) (a b : Shared Row) (k : RowKey) : Prop
  | same (hlog : b.log.rowLog k = a.log.rowLog k)
      (hver : ∀ y, b.kv.version k y = a.kv.version k y)
  | write (e : Entry Row) (hxid : e.xid = x) (hlog : b.log.rowLog k = a.log.rowLog k ++ [e])
      (hrun : x ∈ a.pa.running) (hothers : ∀ y ∈ a.log.chain k, y ≠ x → a.pa.Finished y)
      (hright : a.lm.HoldsExclusive k x ∧ a.log.chain k ≠ [] ∨ a.log.rowLog k = [] ∧ k ∈ ins)
  | strike (hlog : b.log.rowLog k = (a.log.rowLog k).filter fun e => e.xid ≠ x)
      (hrun : x ∈ a.pa.running) (hlast : (a.log.chain k).getLast? = some x)
      (hver : ∀ y, b.kv.version k y = a.kv.version k y)

structure Evolve (x : Xid) (ins : List RowKey) (a b : Shared Row) : Prop where
  finished : ∀ y, a.pa.Finished y → b.pa.Finished y
  running : ∀ y, y ≠ x → y ∈ a.pa.running → y ∈ b.pa.running
  clog : ∀ y, y ≠ x → b.kv.clogGet y = a.kv.clogGet y
  committed : ∀ y, a.Committed y → b.Committed y
  lock : ∀ k y, y ≠ x → a.lm.HoldsExclusive k y → b.lm.HoldsExclusive k y
  rowid : ∀ t, a.nextRowid t ≤ b.nextRowid t
  row : ∀ k, RowStep x ins a b k

variable {a b : Shared Row}

theorem chain_congr (h : b.log.rowLog k = a.log.rowLog k) : b.log.chain k = a.log.chain k := by
  simp only [History.chain, h]

theorem image_congr (h : b.log.rowLog k = a.log.rowLog k) (y : Xid) :
    b.log.image k y = a.log.image k y := by
  simp only [History.image, h]

theorem chain_write {e : Entry Row} (h : b.log.rowLog k = a.log.rowLog k ++ [e]) :
    b.log.chain k = addAuthor (a.log.chain k) e.xid := by
  simp only [History.chain, h, authors_snoc]

theorem chain_strike {x : Xid} (hnd : (a.log.chain k).Nodup)
    (hlast : (a.log.chain k).getLast? = some x)
    (h : b.log.rowLog k = (a.log.rowLog k).filter fun e => e.xid ≠ x) :
    b.log.chain k = (a.log.chain k).dropLast := by
  simp only [History.chain, h]
  exact authors_filter_last Entry.xid hnd hlast

theorem not_finished_of_running {pa : ProcArray} {x : Xid} (h : x ∈ pa.running) :
    ¬ pa.Finished x := fun hf => hf.2 h

section Stable

variable {x y : Xid} {ins : List RowKey} {a b : Shared Row}

theorem ViewInv.evolve_closed {own : Option Xid} (h : ViewInv a S own) (hI : SharedInv a)
    (hE : Evolve x ins a b) (k : RowKey) :
    (b.log.chain k).Pairwise fun c d => S.canSee d → S.canSee c := by
  cases hE.row k with
  | same hlog =>
    rw [chain_congr hlog]
    exact h.closed k
  | write e hxid hlog hxr =>
    have hns : ¬ S.canSee x := fun hs => not_finished_of_running hxr (h.finished x hs)
    rw [chain_write hlog, hxid, addAuthor]
    split_ifs
    · exact h.closed k
    · rw [pairwise_append]
      refine ⟨h.closed k, pairwise_singleton _ _, ?_⟩
      intro a' _ b' hb' hs
      rw [mem_singleton] at hb'
      subst hb'
      exact absurd hs hns
  | strike hlog _ hlast =>
    rw [chain_strike (hI.row k).nodup hlast hlog]
    exact (h.closed k).sublist (dropLast_sublist _)

theorem ViewInv.evolve {own : Option Xid} (h : ViewInv a S own) (hI : SharedInv a)
    (hE : Evolve x ins a b) (hown : own ≠ some x) (hrun : ∀ y, own = some y → y ∈ a.pa.running) :
    ViewInv b S own where
  finished z hz := hE.finished z (h.finished z hz)
  closed k := h.evolve_closed hI hE k
  covers k z hz hzc c hc hne := by
    have hzx : z ≠ x := fun hzx => hown (by rw [hz, hzx])
    cases hE.row k with
    | same hlog =>
      rw [chain_congr hlog] at hzc hc
      exact h.covers k z hz hzc c hc hne
    | write e hxid hlog _ hothers =>
      rw [chain_write hlog, hxid, mem_addAuthor] at hzc
      have hzc' : z ∈ a.log.chain k := hzc.resolve_right hzx
      exact absurd (hothers z hzc' hzx) (not_finished_of_running (hrun z hz))
    | strike hlog _ hlast =>
      rw [chain_strike (hI.row k).nodup hlast hlog] at hzc hc
      exact h.covers k z hz (mem_of_mem_dropLast hzc) c (mem_of_mem_dropLast hc) hne

theorem Target.evolve (h : Target a S y k) (hI : SharedInv a)
    (hV : ∀ z, S.canSee z → a.pa.Finished z) (hE : Evolve x ins a b) (hne : y ≠ x) :
    Target b S y k := by
  obtain ⟨z, hz, hzy⟩ := h
  cases hE.row k with
  | same hlog => exact ⟨z, by rw [chain_congr hlog, hz], hzy⟩
  | write e _ hlog =>
    refine ⟨z, ?_, hzy⟩
    rw [chain_write hlog, addAuthor]
    split_ifs
    · exact hz
    · rw [head?_append, hz]
      rfl
  | strike hlog hrun hlast =>
    refine ⟨z, ?_, hzy⟩
    rw [chain_strike (hI.row k).nodup hlast hlog]
    obtain ⟨c, hc⟩ := List.getLast?_eq_some_iff.mp hlast
    rw [hc, dropLast_concat]
    cases c with
    | nil =>
      -- the chain would be `x` alone, which `y` can neither be nor see
      rw [hc] at hz
      have hzx : x = z := by simpa using hz
      rcases hzy with rfl | hs
      · exact absurd hzx.symm hne
      · exact absurd (hV z hs) (hzx ▸ not_finished_of_running hrun)
    | cons =>
      rw [hc] at hz
      simpa using hz

theorem Current.evolve {curXmin : Xid} {cur : Row} (h : Current a y cover k curXmin cur)
    (hI : SharedInv a) (hE : Evolve x ins a b) (hne : y ≠ x) : Current b y cover k curXmin cur := by
  have hsame : b.log.rowLog k = a.log.rowLog k := by
    cases hE.row k with
    | same hlog => exact hlog
    | write e _ _ _ _ hright =>
      rcases hright with ⟨hlock, -⟩ | ⟨hnil, -⟩
      · exact absurd (hI.sole.unique hlock h.lock.holds) hne
      · have hlast := h.last
        simp [History.chain, hnil] at hlast
    | strike _ hrun hlast =>
      have hfin := (h.others x (mem_of_getLast? hlast) hne.symm).2
      exact absurd hfin (not_finished_of_running hrun)
  have hchain := chain_congr hsame
  refine ⟨hE.lock k y hne h.lock, by rw [hchain, h.last], by rw [image_congr hsame, h.image],
    ?_, ?_⟩
  · intro z hz hzy
    rw [hchain] at hz
    have ho := h.others z hz hzy
    exact ⟨hE.committed z ho.1, hE.finished z ho.2⟩
  · intro S hS z hz hzy
    rw [hchain] at hz
    exact h.covered S hS z hz hzy

theorem Pending.evolve {c : Change Row} (h : Pending a y cover c) (hI : SharedInv a)
    (hE : Evolve x ins a b) (hne : y ≠ x) (hins : ∀ k row, c = .insert k row → k ∉ ins) :
    Pending b y cover c := by
  cases c with
  | insert k row =>
    obtain ⟨hlog, hver, hlt⟩ := h
    have hchain : a.log.chain k = [] := by simp [History.chain, hlog]
    refine ⟨?_, ?_, lt_of_lt_of_le hlt (hE.rowid k.1)⟩
    · cases hE.row k with
      | same hs => rw [hs, hlog]
      | write e _ _ _ _ hright =>
        rcases hright with ⟨-, hne'⟩ | ⟨-, hmem⟩
        · exact absurd hchain hne'
        · exact absurd hmem (hins k row rfl)
      | strike _ _ hlast =>
        rw [hchain] at hlast
        cases hlast
    · cases hE.row k with
      | same _ hv | strike _ _ _ hv =>
        intro z
        rw [hv, hver]
      | write e _ _ _ _ hright =>
        rcases hright with ⟨-, hne'⟩ | ⟨-, hmem⟩
        · exact absurd hchain hne'
        · exact absurd hmem (hins k row rfl)
  | update | delete => exact Current.evolve h hI hE hne

theorem ChangesInv.evolve {w : Work Row} {cs : List (Change Row)} (h : ChangesInv a y cover w cs)
    (hI : SharedInv a) (hE : Evolve x ins a b) (hne : y ≠ x) (hins : ∀ k ∈ ins, k ∉ insertKeys cs) :
    ChangesInv b y cover w cs where
  pending c hc := by
    refine (h.pending c hc).evolve hI hE hne ?_
    rintro k row rfl hk
    refine hins k hk ?_
    exact mem_filterMap.mpr ⟨.insert k row, hc, rfl⟩
  nodup := h.nodup
  valid := h.valid

theorem FrameInv.evolve {txn : TxnState} {f : Frame Row} {targets : List RowId}
    (h : FrameInv a txn f targets) (hI : SharedInv a) (hE : Evolve x ins a b) (hne : f.xid ≠ x)
    (hrun : f.xid ∈ a.pa.running) (hins : ∀ k ∈ ins, k ∉ insertKeys f.changes) :
    FrameInv b txn f targets where
  view := by
    refine h.view.evolve hI hE ?_ ?_
    · intro hx
      exact hne (Option.some.inj hx)
    · intro z hz
      exact Option.some.inj hz ▸ hrun
  block := h.block
  seqOps := h.seqOps
  target r hr := (h.target r hr).evolve hI h.view.finished hE hne
  nodup := h.nodup
  apart := h.apart
  changes := h.changes.evolve hI hE hne hins

theorem BatchInv.evolve {txn : TxnState} {t : Batch Row} {after : After}
    (h : BatchInv a txn t after) (hI : SharedInv a) (hE : Evolve x ins a b) (hne : t.xid ≠ x)
    (hins : ∀ k ∈ ins, k ∉ insertKeys t.changes) : BatchInv b txn t after where
  seqOps := h.seqOps
  nextXid := h.nextXid
  after := by
    have hafter := h.after
    cases after with
    | keep =>
      obtain ⟨ho, c, htxn, hx, hc⟩ := hafter
      exact ⟨ho, c, htxn, hx, hc.evolve hI hE hne hins⟩
    | close =>
      obtain ⟨htxn, ho, hc⟩ := hafter
      exact ⟨htxn, ho, hc.evolve hI hE hne hins⟩
    | enlist => exact hafter

theorem PcInv.evolve (h : PcInv a self.txn self.pc) (hI : SharedInv a) (hE : Evolve x ins a b)
    (hne : ∀ y, activeXid self = some y → y ≠ x)
    (hrun : ∀ y, activeXid self = some y → y ∈ a.pa.running)
    (hins : ∀ k ∈ ins, k ∉ insertKeys (pendingChanges self)) : PcInv b self.txn self.pc := by
  unfold activeXid pendingChanges at *
  cases hpc : self.pc with
  | ready => trivial
  | scanning =>
    simp only [hpc, PcInv] at h hne hrun ⊢
    refine ⟨h.1.evolve hI hE (hne _ rfl) (hrun _ rfl) ?_, h.2⟩
    simp [insertKeys, h.2.2]
  | looping | acquiring =>
    simp only [hpc, PcInv] at h hne hrun hins ⊢
    exact h.evolve hI hE (hne _ rfl) (hrun _ rfl) hins
  | locked =>
    simp only [hpc, PcInv] at h hne hrun hins ⊢
    exact ⟨h.1.evolve hI hE (hne _ rfl) (hrun _ rfl) hins,
      fun hm => hE.lock _ _ (hne _ rfl) (h.2 hm)⟩
  | committing =>
    simp only [hpc, PcInv] at h hne hins ⊢
    exact h.evolve hI hE (hne _ rfl) hins
  | releasing z =>
    simp only [hpc, PcInv] at h ⊢
    exact ⟨h.1, hE.finished z h.2⟩
  | preparing => simp only [hpc, PcInv] at h
  | _ => simpa only [hpc, PcInv] using h

theorem activeXid_of_block (h : PcInv a self.txn self.pc) {c : TxnCtx} {z : Xid}
    (hc : self.txn = .inTransaction c ∨ self.txn = .failed c) (hx : c.xid = some z) :
    activeXid self = some z := by
  have hlocal : self.txn.localXid = some z := by
    rcases hc with hc | hc <;> rw [hc] <;> exact hx
  have hidle : self.txn ≠ .idle := by
    intro hi
    rw [hi] at hlocal
    cases hlocal
  have hblock : ∀ {y : Xid} {auto rr : Bool} {S : Snapshot}, Block self.txn y auto rr S →
      y = z := by
    intro y auto rr S hb
    unfold Block at hb
    split_ifs at hb
    · exact absurd hb.1 hidle
    · obtain ⟨c', hc', hx', -⟩ := hb
      rw [hc'] at hlocal
      exact Option.some.inj (hx'.symm.trans hlocal)
  unfold activeXid
  cases hpc : self.pc with
  | ready => exact hlocal
  | starting =>
    simp only [hpc, PcInv] at h
    split_ifs at h
    · exact absurd h hidle
    · obtain ⟨c', hc', hx'⟩ := h
      rw [hc'] at hlocal
      exact hx'.symm.trans hlocal
  | scanning | locked =>
    simp only [hpc, PcInv] at h
    simp only [hblock h.1.block]
  | looping | acquiring =>
    simp only [hpc, PcInv] at h
    simp only [hblock h.block]
  | committing t epoch after =>
    simp only [hpc, PcInv] at h
    have hafter := h.after
    cases after with
    | keep =>
      obtain ⟨-, c', hc', hx', -⟩ := hafter
      rw [hc'] at hlocal
      exact hx'.symm.trans hlocal
    | close => exact absurd hafter.1 hidle
    | enlist => exact hafter.elim
  | preparing =>
    simp only [hpc, PcInv] at h
  | finishing =>
    simp only [hpc, PcInv] at h
    exact absurd h hidle
  | releasing =>
    simp only [hpc, PcInv] at h
    exact absurd h.1 hidle

theorem SessInv.evolve (h : SessInv a self) (hI : SharedInv a) (hE : Evolve x ins a b)
    (hne : activeXid self ≠ some x) (hins : ∀ k ∈ ins, k ∉ insertKeys (pendingChanges self)) :
    SessInv b self where
  global := h.global
  running y hy := by
    refine hE.running y ?_ (h.running y hy)
    rintro rfl
    exact hne hy
  undecided y hy hf := by
    rw [hE.clog y ?_, h.undecided y hy hf]
    rintro rfl
    exact hne hy
  block c hc hrr := by
    have hactive : ∀ z, c.xid = some z → activeXid self = some z :=
      fun z hz => activeXid_of_block h.pc hc hz
    refine (h.block c hc hrr).evolve hI hE ?_ ?_
    · intro hx
      exact hne (hactive x hx)
    · intro z hz
      exact h.running z (hactive z hz)
  pc := by
    refine h.pc.evolve hI hE ?_ h.running hins
    rintro y hy rfl
    exact hne hy

end Stable

/-- A step keeps the invariant when it keeps the shared part and the invariant of the session
that takes it, and the others see it as an evolution. -/
theorem Inv.step_of {T : Tracked Row} (h : Inv T) (s : SessionId) {sh : Shared Row} (x : Xid)
    (ins : List RowKey) (hsh : SharedInv sh) (hE : Evolve x ins T.sh sh)
    (hx : ∀ s', s' ≠ s → activeXid (T.sessions s') ≠ some x)
    (hins : ∀ s', s' ≠ s → ∀ k ∈ ins, k ∉ insertKeys (pendingChanges (T.sessions s')))
    (hself : SessInv sh self)
    (huniq : ∀ s', s' ≠ s → ∀ y, activeXid self = some y → activeXid (T.sessions s') ≠ some y)
    (hapart : ∀ s', s' ≠ s → ∀ k ∈ insertKeys (pendingChanges self),
      k ∉ insertKeys (pendingChanges (T.sessions s'))) :
    Inv ⟨sh, Function.update T.sessions s self⟩ where
  shared := hsh
  sess s' := by
    by_cases hs : s' = s
    · subst hs
      simpa using hself
    · simp only [update_of_ne hs]
      exact (h.sess s').evolve h.shared hE (hx s' hs) (hins s' hs)
  uniq s₁ s₂ y h₁ h₂ := by
    by_cases hs₁ : s₁ = s <;> by_cases hs₂ : s₂ = s
    · rw [hs₁, hs₂]
    · subst hs₁
      simp only [update_self, update_of_ne hs₂] at h₁ h₂
      exact absurd h₂ (huniq s₂ hs₂ y h₁)
    · subst hs₂
      simp only [update_self, update_of_ne hs₁] at h₁ h₂
      exact absurd h₁ (huniq s₁ hs₁ y h₂)
    · simp only [update_of_ne hs₁, update_of_ne hs₂] at h₁ h₂
      exact h.uniq s₁ s₂ y h₁ h₂
  apart s₁ s₂ k h₁ h₂ := by
    by_cases hs₁ : s₁ = s <;> by_cases hs₂ : s₂ = s
    · rw [hs₁, hs₂]
    · subst hs₁
      simp only [update_self, update_of_ne hs₂] at h₁ h₂
      exact absurd h₂ (hapart s₂ hs₂ k h₁)
    · subst hs₂
      simp only [update_self, update_of_ne hs₁] at h₁ h₂
      exact absurd h₁ (hapart s₁ hs₁ k h₂)
    · simp only [update_of_ne hs₁, update_of_ne hs₂] at h₁ h₂
      exact h.apart s₁ s₂ k h₁ h₂

end Crabgresql.Single
