import Crabgresql.Owners
import Crabgresql.Cluster.Locks

/-!
# Re-locking the rows in doubt

A leader that rises locks the rows of every marker in doubt for the marker's local xid, and releases
them when the abort race has decided the global transaction. The lock is installed beside whatever
holders the row has: a FOR UPDATE needs no open gate, and a session may still be open from an
earlier term. It is released from the list of the same attempt only, while a decision may reach
range 0 between two attempts.
-/

namespace Crabgresql.Cluster

open Mvcc Kv Procarray Lockmgr Exec Session Engine Recovery List Range Runs Option LockMgr
open MultiRangeCluster

variable {Row : Type}
variable {kv : Store Row} {a : Act Row} {act : RangeAct Row} {s : SessionId}

section Locks

variable {lm : LockMgr} {k k' : RowKey} {x y : Xid}

theorem locks_reacquire_ne (h : k' ≠ k) : (lm.reacquireExclusive k x).locks k' = lm.locks k' := by
  unfold reacquireExclusive
  split <;> simp [setLock, h]

theorem locks_reacquire (h : ∀ l, lm.locks k = some l → l.holders = [x]) :
    (lm.reacquireExclusive k x).locks k = some ⟨.exclusive, [x]⟩ := by
  unfold reacquireExclusive
  cases hl : lm.locks k with
  | none => simp [setLock]
  | some l => simp [setLock, h l hl]

theorem holds_reacquire (h : (lm.reacquireExclusive k x).Holds k' y) : lm.Holds k' y ∨ y = x := by
  by_cases hk : k' = k
  · subst hk
    obtain ⟨l, hl, hy⟩ := h
    unfold reacquireExclusive at hl
    cases hold : lm.locks k' with
    | none =>
      rw [hold] at hl
      simp only [setLock, Function.update_self, some.injEq] at hl
      subst hl
      exact .inr (mem_singleton.mp hy)
    | some l₀ =>
      rw [hold] at hl
      simp only [setLock, Function.update_self, some.injEq] at hl
      subst hl
      dsimp only at hy
      split_ifs at hy
      · exact .inl ⟨l₀, hold, hy⟩
      · obtain hyx | hy := mem_cons.mp hy
        · exact .inr hyx
        · exact .inl ⟨l₀, hold, hy⟩
  · obtain ⟨l, hl, hy⟩ := h
    rw [locks_reacquire_ne hk] at hl
    exact .inl ⟨l, hl, hy⟩

theorem holds_relocked {keys : List VersionKey}
    (h : (keys.foldl (fun lm k => lm.reacquireExclusive k.rowKey k.xid) lm).Holds k' y) :
    lm.Holds k' y ∨ ∃ k ∈ keys, k.xid = y := by
  induction keys generalizing lm with
  | nil => exact .inl h
  | cons key keys ih =>
    obtain hy | ⟨k, hk, hy⟩ := ih h
    · obtain hy | rfl := holds_reacquire hy
      · exact .inl hy
      · exact .inr ⟨key, mem_cons_self, rfl⟩
    · exact .inr ⟨k, mem_cons_of_mem _ hk, hy⟩

-- Induction on the versions still to be locked: the row is free for `x` throughout, and after its
-- first version it is locked.
theorem locks_relocked {keys : List VersionKey} (hfree : ∀ l, lm.locks k = some l → l.holders = [x])
    (hsame : ∀ key ∈ keys, key.rowKey = k → key.xid = x)
    (hin : lm.locks k = some ⟨.exclusive, [x]⟩ ∨ ∃ key ∈ keys, key.rowKey = k) :
    (keys.foldl (fun lm k => lm.reacquireExclusive k.rowKey k.xid) lm).locks k =
      some ⟨.exclusive, [x]⟩ := by
  induction keys generalizing lm with
  | nil => exact hin.resolve_right nofun
  | cons key keys ih =>
    have hrest : ∀ key' ∈ keys, key'.rowKey = k → key'.xid = x :=
      fun key' h => hsame key' (mem_cons_of_mem _ h)
    by_cases hkey : key.rowKey = k
    · have hlocked : (lm.reacquireExclusive key.rowKey key.xid).locks k =
          some ⟨.exclusive, [x]⟩ := by
        rw [hsame key mem_cons_self hkey, hkey]
        exact locks_reacquire hfree
      refine ih (fun l hl => ?_) hrest (.inl hlocked)
      rw [hlocked] at hl
      cases hl
      rfl
    · have hkept : (lm.reacquireExclusive key.rowKey key.xid).locks k = lm.locks k :=
        locks_reacquire_ne (Ne.symm hkey)
      refine ih (fun l hl => hfree l (hkept ▸ hl)) hrest ?_
      rw [hkept]
      refine hin.imp_right ?_
      rintro ⟨key', hmem, hk⟩
      obtain rfl | hmem := mem_cons.mp hmem
      · exact absurd hk hkey
      · exact ⟨key', hmem, hk⟩

theorem holds_releasedAll {xs : List Xid} (h : (xs.foldl releaseAll lm).Holds k y) :
    lm.Holds k y ∧ y ∉ xs := by
  induction xs generalizing lm with
  | nil => exact ⟨h, nofun⟩
  | cons x xs ih =>
    obtain ⟨hy, hxs⟩ := ih h
    obtain ⟨hy, hx⟩ := holds_releaseAll hy
    exact ⟨hy, not_mem_cons_of_ne_of_not_mem hx hxs⟩

theorem locks_releaseAll_ne (hne : y ≠ x) (h : lm.locks k = some ⟨.exclusive, [x]⟩) :
    (lm.releaseAll y).locks k = some ⟨.exclusive, [x]⟩ := by
  simp [releaseAll, h, hne.symm]

theorem locks_releasedAll_ne {xs : List Xid} (hne : x ∉ xs)
    (h : lm.locks k = some ⟨.exclusive, [x]⟩) :
    (xs.foldl releaseAll lm).locks k = some ⟨.exclusive, [x]⟩ := by
  induction xs generalizing lm with
  | nil => exact h
  | cons y xs ih =>
    rw [mem_cons, not_or] at hne
    exact ih hne.2 (locks_releaseAll_ne (Ne.symm hne.1) h)

end Locks

/-! ## The rows in doubt -/

/-- Every row with a version in doubt is locked by its xid alone. User tables start at 1. -/
def LockedAlone (glob : GlobalView) (kv : Store Row) (lm : LockMgr) : Prop :=
  ∀ (k : RowKey) (x g : Xid), 1 ≤ k.1 → Undecided glob kv x g → (kv.version k x).isSome = true →
    lm.locks k = some ⟨.exclusive, [x]⟩

/-- No holder but the xid in doubt, no second xid in doubt on the row, and no marker in doubt below
the watermark. -/
structure Claimable (glob : GlobalView) (kv : Store Row) (lm : LockMgr) : Prop where
  held : ∀ k x g, Undecided glob kv x g → (kv.version k x).isSome = true →
    ∀ l, lm.locks k = some l → l.holders = [x]
  single : ∀ k x g x' g', Undecided glob kv x g → (kv.version k x).isSome = true →
    Undecided glob kv x' g' → (kv.version k x').isSome = true → x' = x
  scanned : ∀ x g, Undecided glob kv x g → clogScanLo kv ≤ x

theorem undecided_of_mem_inDoubt {glob : GlobalView} {lo : ℕ} {x g : Xid}
    (h : (x, g) ∈ inDoubt glob (clogScan kv lo)) : Undecided glob kv x g := by
  obtain ⟨hscan, hpending⟩ := mem_inDoubt.mp h
  obtain ⟨hget, -, hlocal⟩ := mem_clogScan.mp hscan
  exact ⟨clogGet_prepared.mpr hget, hpending, hlocal⟩

theorem lockedAlone_reacquired {glob : GlobalView} {lm : LockMgr} (h : Claimable glob kv lm) :
    LockedAlone glob kv (reacquireInDoubtLocks kv glob lm).1 := by
  intro k x g htable hu hversion
  have hopen : (x, g) ∈ inDoubt glob (clogScan kv (clogScanLo kv)) :=
    mem_inDoubt.mpr ⟨mem_clogScan.mpr
      ⟨clogGet_prepared.mp hu.marker, h.scanned x g hu, hu.isLocal⟩, hu.pending⟩
  refine locks_relocked (h.held k x g hu hversion) ?_ (.inr ⟨versionKey k x, ?_, rfl⟩)
  · intro key hkey hrow
    obtain ⟨hmem, hcond⟩ := mem_filter.mp hkey
    rw [Bool.and_eq_true, decide_eq_true_eq, decide_eq_true_eq] at hcond
    obtain ⟨⟨x', g'⟩, hx', hxid⟩ := mem_map.mp hcond.2
    obtain ⟨⟨key', t⟩, hentry, hkey'⟩ := mem_map.mp hmem
    change key' = key at hkey'
    subst hkey'
    change x' = key'.xid at hxid
    subst hxid
    have hversion' : kv.version k key'.xid = some t := by
      rw [← hrow]
      exact Std.ExtTreeMap.mem_toList_iff_getElem?_eq_some.mp hentry
    exact h.single k x g key'.xid g' hu hversion (undecided_of_mem_inDoubt hx')
      (by rw [hversion']; rfl)
  · obtain ⟨t, ht⟩ := isSome_iff_exists.mp hversion
    refine mem_filter.mpr ⟨mem_map.mpr ⟨(versionKey k x, t), ?_, rfl⟩, ?_⟩
    · exact Std.ExtTreeMap.mem_toList_iff_getElem?_eq_some.mpr ht
    · rw [Bool.and_eq_true, decide_eq_true_eq, decide_eq_true_eq]
      exact ⟨htable, mem_map.mpr ⟨(x, g), hopen, rfl⟩⟩

/-- The sweep has re-locked and has neither failed nor found every marker decided. -/
def Sweep.locking : Sweep → Bool
  | .relocked _ _ | .racing _ _ _ _ _ | .unlocked _ _ => true
  | _ => false

/-- The markers whose rows the attempt has re-locked and not yet gone through. -/
def Sweep.relocks : Sweep → List (Xid × Xid)
  | .relocked _ inDoubt | .racing _ inDoubt _ _ _ => inDoubt
  | _ => []

/-- A node re-locks rows that nobody else claims. Until its sweep ends its replica stays, the
sessions that hold an xid in doubt do nothing, and the locks it releases are of decided markers. -/
def Undisturbed (glob : GlobalView) (R : Range Row) : RangeAct Row → Prop
  | .relock n lag => Claimable (lag.view glob) (R.storeAt (R.nodes n).applied) (R.nodes n).lm
  | .call n s a _ => (R.nodes n).sweep.locking = true → a ≠ .apply true ∧
      ∀ x g, Undecided glob (R.storeAt (R.nodes n).applied) x g → holding (R.sess n s) ≠ some x
  | .catchUp n => (R.nodes n).sweep.locking = false
  | .unlock n => ∀ term inDoubt lo gs resolved,
      (R.nodes n).sweep = .racing term inDoubt lo gs resolved → ∀ p ∈ inDoubt, p.2 ∈ resolved →
        ∀ g, ¬ Undecided glob (R.storeAt (R.nodes n).applied) p.1 g
  | _ => True

section Steps

variable {glob : GlobalView} {R R' : Range Row} {n : NodeId} {node : Node Row}

theorem Move.locks_alone {env : Env} {v v' : View Row} (hm : Move env v a v') {k : RowKey} {x : Xid}
    (h : v.lm.locks k = some ⟨.exclusive, [x]⟩) (hself : holding v.self ≠ some x) :
    v'.lm.locks k = some ⟨.exclusive, [x]⟩ := by
  cases hm with
  | grant f r pick lm hpc ho | wait f r pick lm hpc ho =>
    exact acquire_locks_exclusive ho h rfl
  | fail a f e lm seq hpc hlm =>
    obtain rfl | ⟨r, pick, -, ho⟩ := hlm
    · exact h
    · exact acquire_locks_exclusive ho h rfl
  | release z ack hpc =>
    refine locks_releaseAll_ne (fun hz => hself ?_) h
    unfold holding
    rw [hpc, hz]
  | drop z hpc hx =>
    refine locks_releaseAll_ne (fun hz => hself ?_) h
    rw [holding_ready hpc, hx, hz]
  | _ => exact h

/-- While the sweep of the node holds the locks, every row in doubt is locked alone. -/
structure Node.Guarding (glob : GlobalView) (R : Range Row) (node : Node Row) : Prop where
  applied : node.applied ≤ R.log.length
  alone : node.sweep.locking = true → LockedAlone glob (R.storeAt node.applied) node.lm

theorem guarding_tends (h : ∀ m, (R.nodes m).Guarding glob R) (hok : Undisturbed glob R act)
    (ht : Tends R glob n act node) : node.Guarding glob R := by
  cases ht with
  | catchUp hlt =>
    refine ⟨hlt, fun hl => ?_⟩
    rw [hok] at hl
    cases hl
  | relock lag =>
    refine ⟨(h n).applied, fun _ k x g htable hu => ?_⟩
    exact lockedAlone_reacquired hok k x g htable (hu.view lag)
  | scan lag term inDoubt hsweep | raced ok term inDoubt lo g gs resolved hsweep =>
    exact ⟨(h n).applied, fun _ => (h n).alone (by rw [hsweep]; rfl)⟩
  | unlock term inDoubt lo resolved hsweep =>
    have hlocked := (h n).alone (by rw [hsweep]; rfl)
    refine ⟨(h n).applied, fun _ k x g htable hu hversion => ?_⟩
    refine locks_releasedAll_ne (fun hx => ?_) (hlocked k x g htable hu hversion)
    obtain ⟨p, hp, rfl⟩ := mem_map.mp hx
    obtain ⟨hp, hresolved⟩ := mem_filter.mp hp
    exact hok term inDoubt lo [] resolved hsweep p hp (of_decide_eq_true hresolved) g hu
  | rescan lag term lo sweep hsweep hnext =>
    refine ⟨(h n).applied, fun hl => ?_⟩
    obtain rfl | ⟨-, rfl | rfl⟩ := hnext <;> cases hl
  | serve | giveUp => exact ⟨(h n).applied, nofun⟩

theorem guarding_step (h : ∀ m, (R.nodes m).Guarding glob R) (hok : Undisturbed glob R act)
    (hstep : R.step glob act = some R') (m : NodeId) : (R'.nodes m).Guarding glob R' := by
  have hlen := log_length_step hstep
  -- what guards the log before the step guards it after
  have hgrown : ∀ {node : Node Row}, node.Guarding glob R → node.Guarding glob R' := by
    intro node hnode
    refine ⟨hnode.applied.trans hlen, fun hl => ?_⟩
    have hstore : R'.storeAt node.applied = R.storeAt node.applied := by
      unfold storeAt
      rcases log_step hstep with hlog | ⟨e, -, hlog⟩
      · rw [hlog]
      · rw [hlog, take_append_of_le_length hnode.applied]
    rw [hstore]
    exact hnode.alone hl
  have hturn := turned_step hstep m
  generalize R'.nodes m = node at hturn
  cases hturn with
  | same => exact hgrown (h m)
  | returned s b epoch after ok lag applied hact hpc happlied =>
    subst hact
    rcases happlied with rfl | ⟨rfl, rfl⟩
    · exact hgrown ⟨(h m).applied, (h m).alone⟩
    · exact ⟨le_rfl, fun hl => absurd rfl (hok hl).1⟩
  | moved s a v lag hact ha hadm hmove =>
    subst hact
    refine hgrown ⟨(h m).applied, fun hl k x g htable hu hversion => ?_⟩
    exact Move.locks_alone hmove ((h m).alone hl k x g htable hu hversion) ((hok hl).2 x g hu)
  | boot => exact hgrown ⟨(h m).applied, nofun⟩
  | settle => exact ⟨hlen, nofun⟩
  | advance term lo applied ok hact hold happlied =>
    refine ⟨?_, nofun⟩
    have hle := (h m).applied
    change applied ≤ _
    omega
  | tends node hpa hsess hintent ht => exact hgrown (guarding_tends h hok ht)

end Steps

/-- In every run that disturbs no sweep, from the re-locking to the end of the sweep, every row that
carries a version in doubt is locked exclusively by the version's xid alone. -/
theorem in_doubt_rows_locked_alone (acts : List (ClusterAct Row)) (C : MultiRangeCluster Row)
    (hok : Runs.Along step (OnRange Undisturbed) .initial acts)
    (hrun : exec step .initial acts = some C) (r : RangeId) (n : NodeId)
    (hsweep : ((C.ranges r).nodes n).sweep.locking = true) :
    LockedAlone C.glob ((C.ranges r).storeAt ((C.ranges r).nodes n).applied)
      ((C.ranges r).nodes n).lm := by
  have hI : ∀ m, ((C.ranges r).nodes m).Guarding C.glob (C.ranges r) := by
    refine range_invariant (I := fun glob R => ∀ m, (R.nodes m).Guarding glob R)
      (fun glob R a R' hI hs hstep => guarding_step hI hs hstep) ?_ ?_ hok hrun
    · intro glob R g commit hI m
      refine ⟨(hI m).applied, fun hl k x g' htable hu hversion => ?_⟩
      exact (hI m).alone hl k x g' htable
        ⟨hu.marker, pending_recordDecision hu.pending, hu.isLocal⟩ hversion
    · intro m
      refine ⟨Nat.zero_le _, fun hl => ?_⟩
      cases hl
  exact (hI n).alone hsweep

section Runs

/-- A committed row and its UPDATE staged into a global transaction on node 0, which then crashes,
is elected again and passes its read barrier. -/
def inheritedRun : List (ClusterAct ℕ) :=
  .on 0 (.elect 0) :: stagedUpdateRun ++ onRange 0 [.crash 0, .elect 0, .settle 0]

/-- A FOR UPDATE reaches the row before the sweep does. -/
def lockedFirstRun : List (ClusterAct ℕ) :=
  inheritedRun ++ onRange 0 (calls 0 2 [.begin false, .start lockAll, .takeSnapshot, .scan, .next,
    .acquire 0] ++ [.relock 0 noLag])

/-- No row has a holder, one marker is in doubt, and nothing runs beside the sweep. -/
def undisturbedCheck (C : MultiRangeCluster ℕ) : ClusterAct ℕ → Bool
  | .on r (.relock n lag) =>
    let R := C.ranges r
    let kv := R.storeAt (R.nodes n).applied
    let open_ := inDoubt (lag.view C.glob) (clogScan kv 0)
    open_.all (fun p => open_.all fun p' => decide (p'.1 = p.1)) &&
      open_.all (fun p => decide (clogScanLo kv ≤ p.1)) &&
      kv.versions.toList.all fun e => decide ((R.nodes n).lm.locks e.1.rowKey = none)
  | .on r (.call n _ _ _) | .on r (.catchUp n) => !((C.ranges r).nodes n).sweep.locking
  | .on r (.unlock n) => decide (((C.ranges r).nodes n).sweep.relocks = [])
  | _ => true

theorem mem_inDoubt_zero {glob : GlobalView} {kv : Store ℕ} {x g : Xid}
    (h : Undecided glob kv x g) : (x, g) ∈ inDoubt glob (clogScan kv 0) :=
  mem_inDoubt.mpr ⟨mem_clogScan.mpr ⟨clogGet_prepared.mp h.marker, Nat.zero_le _, h.isLocal⟩,
    h.pending⟩

theorem undisturbed_of_check {C : MultiRangeCluster ℕ} {act : ClusterAct ℕ}
    (h : undisturbedCheck C act = true) : OnRange Undisturbed C act := by
  cases act with
  | decide => trivial
  | on r a =>
    cases a with
    | relock =>
      simp only [undisturbedCheck, Bool.and_eq_true, decide_eq_true_eq, List.all_eq_true] at h
      obtain ⟨⟨hone, hlo⟩, hfree⟩ := h
      refine ⟨fun k x g _ hversion l hl => ?_, fun k x g x' g' hu _ hu' _ => ?_, fun x g hu => ?_⟩
      · obtain ⟨t, ht⟩ := isSome_iff_exists.mp hversion
        have hnone := hfree (versionKey k x, t)
          (Std.ExtTreeMap.mem_toList_iff_getElem?_eq_some.mpr ht)
        rw [show (versionKey k x, t).1.rowKey = k from rfl, hl] at hnone
        cases hnone
      · exact hone (x, g) (mem_inDoubt_zero hu) (x', g') (mem_inDoubt_zero hu')
      · exact hlo (x, g) (mem_inDoubt_zero hu)
    | call =>
      intro hl
      simp [undisturbedCheck, hl] at h
    | catchUp n =>
      change ((C.ranges r).nodes n).sweep.locking = false
      simpa [undisturbedCheck] using h
    | unlock =>
      intro term inDoubt lo gs resolved hsweep p hp
      simp only [undisturbedCheck, hsweep, Sweep.relocks, decide_eq_true_eq] at h
      rw [h] at hp
      cases hp
    | _ => trivial

end Runs

/-- The inherited row is locked for xid 2 alone. -/
theorem in_doubt_rows_locked_alone_inherited : ∃ C : MultiRangeCluster ℕ,
      exec step initial
        (inheritedRun ++ [.on 0 (.relock 0 noLag)]) = some C ∧
      ((C.ranges 0).nodes 0).lm.locks (1, 1) = some ⟨.exclusive, [2]⟩ := by
  obtain ⟨C, hC, hsweep, hundecided, hversion⟩ :
      ∃ C ∈ exec step initial
        (inheritedRun ++ [.on 0 (.relock 0 noLag)]), ((C.ranges 0).nodes 0).sweep.locking = true ∧
        Undecided C.glob ((C.ranges 0).storeAt ((C.ranges 0).nodes 0).applied) 2 globalXidBase ∧
        (((C.ranges 0).storeAt ((C.ranges 0).nodes 0).applied).version (1, 1) 2).isSome = true := by
    decide +kernel
  have hok : Along step (OnRange Undisturbed)
      (initial : MultiRangeCluster ℕ)
      (inheritedRun ++ [.on 0 (.relock 0 noLag)]) :=
    along_of_check undisturbedCheck (fun _ _ => undisturbed_of_check) (by decide +kernel)
  exact ⟨C, hC, in_doubt_rows_locked_alone _ C hok hC 0 0 hsweep (1, 1) 2 globalXidBase (by decide)
    hundecided hversion⟩

/-- Xid 3 keeps its lock on the inherited row and shares it with xid 2. -/
theorem relocked_row_shared : ∃ C : MultiRangeCluster ℕ,
      exec step initial lockedFirstRun = some C ∧
      (C.ranges 0).leader = some 0 ∧ ((C.ranges 0).nodes 0).sweep.locking = true ∧
      Undecided C.glob ((C.ranges 0).storeAt ((C.ranges 0).nodes 0).applied) 2 globalXidBase ∧
      (((C.ranges 0).storeAt ((C.ranges 0).nodes 0).applied).version (1, 1) 2).isSome = true ∧
      ((C.ranges 0).nodes 0).lm.locks (1, 1) = some ⟨.exclusive, [2, 3]⟩ :=
  exists_some (by decide +kernel)

/-! ## Who answers for a lock -/

/-- The scan for the races still sees every marker that was re-locked, every race gets an answer,
and no attempt fails between the re-locking and the release. -/
def RacesAnswered (glob : GlobalView) (R : Range Row) : RangeAct Row → Prop
  | .scan n lag => ∀ p ∈ (R.nodes n).sweep.relocks,
      p.2 ∈ (inDoubtGlobalsFrom (R.storeAt (R.nodes n).applied) (lag.view glob)
        (clogScanLo (R.storeAt (R.nodes n).applied))).1
  | .raced _ ok => ok = true
  | .giveUp n => (R.nodes n).sweep.relocks = []
  | _ => True

/-- A lock is held for a session or for a marker that the sweep is going through. -/
structure Node.Answers (node : Node Row) : Prop where
  coherent : ∀ s, Coherent (node.sessions s)
  owner : ∀ k x, node.lm.Holds k x → (∃ s, holding (node.sessions s) = some x) ∨
    ∃ p ∈ node.sweep.relocks, p.1 = x
  races : ∀ term inDoubt lo gs resolved, node.sweep = .racing term inDoubt lo gs resolved →
    ∀ p ∈ inDoubt, p.2 ∈ gs ∨ p.2 ∈ resolved

section Answers

variable {glob : GlobalView} {R R' : Range Row} {n : NodeId} {node : Node Row}

theorem answers_move (h : (R.nodes n).Answers) {env : Env} {v : View Row}
    (hmove : Move env ((R.nodes n).view s kv) a v) (hlm : node.lm = v.lm)
    (hsess : node.sessions = Function.update (R.nodes n).sessions s v.self)
    (hsweep : node.sweep = (R.nodes n).sweep) : node.Answers := by
  obtain ⟨hcoherent, hv⟩ := Move.handles hmove (h.coherent s)
  refine ⟨fun s' => ?_, fun k x hx => ?_, hsweep ▸ h.races⟩
  · rw [hsess, Function.update_apply]
    split_ifs
    · exact hcoherent
    · exact h.coherent s'
  · rw [hlm] at hx
    rw [hsess, hsweep]
    obtain hself | ⟨hother, hx⟩ := hv.locks hx
    · exact .inl ⟨s, by rw [Function.update_self]; exact hself⟩
    · refine (h.owner k x hx).imp_left ?_
      rintro ⟨s', hs'⟩
      have hne : s' ≠ s := by
        rintro rfl
        exact hother hs'
      exact ⟨s', by rw [Function.update_of_ne hne]; exact hs'⟩

theorem Node.Answers.same (h : (R.nodes n).Answers) (hlm : node.lm = (R.nodes n).lm)
    (hsess : node.sessions = (R.nodes n).sessions)
    (hrelocks : node.sweep.relocks = (R.nodes n).sweep.relocks)
    (hraces : ∀ term inDoubt lo gs resolved, node.sweep = .racing term inDoubt lo gs resolved →
      ∀ p ∈ inDoubt, p.2 ∈ gs ∨ p.2 ∈ resolved) : node.Answers where
  coherent s := by
    rw [hsess]
    exact h.coherent s
  owner k x hx := by
    rw [hlm] at hx
    rw [hsess, hrelocks]
    exact h.owner k x hx
  races := hraces

theorem mem_relocked_keys {lm : LockMgr} {k : RowKey} {x : Xid}
    (h : (reacquireInDoubtLocks kv glob lm).1.Holds k x) :
    lm.Holds k x ∨ ∃ p ∈ (reacquireInDoubtLocks kv glob lm).2, p.1 = x := by
  obtain hx | ⟨key, hkey, rfl⟩ := holds_relocked h
  · exact .inl hx
  · obtain ⟨-, hcond⟩ := mem_filter.mp hkey
    rw [Bool.and_eq_true, decide_eq_true_eq, decide_eq_true_eq] at hcond
    exact .inr (mem_map.mp hcond.2)

theorem answers_tends (h : (R.nodes n).Answers) (hok : RacesAnswered glob R act)
    (ht : Tends R glob n act node) : node.Answers := by
  cases ht with
  | catchUp => exact h.same rfl rfl rfl h.races
  | relock lag term hsweep =>
    refine ⟨h.coherent, fun k x hx => ?_, nofun⟩
    obtain hx | hx := mem_relocked_keys hx
    · obtain hs | ⟨p, hp, -⟩ := h.owner k x hx
      · exact .inl hs
      · rw [hsweep] at hp
        cases hp
    · exact .inr hx
  | scan lag term inDoubt hsweep =>
    refine h.same rfl rfl (by rw [hsweep]; rfl) ?_
    intro term' inDoubt' lo gs resolved heq p hp
    cases heq
    refine .inl (hok p ?_)
    rw [hsweep]
    exact hp
  | raced ok term inDoubt lo g gs resolved hsweep =>
    refine h.same rfl rfl (by rw [hsweep]; rfl) ?_
    intro term' inDoubt' lo' gs' resolved' heq p hp
    cases heq
    rw [if_pos (show ok = true from hok)]
    obtain hg | hr := h.races _ _ _ _ _ hsweep p hp
    · obtain hg | hg := mem_cons.mp hg
      · exact .inr (mem_cons.mpr (.inl hg))
      · exact .inl hg
    · exact .inr (mem_cons_of_mem g hr)
  | unlock term inDoubt lo resolved hsweep =>
    refine ⟨h.coherent, fun k x hx => .inl ?_, nofun⟩
    obtain ⟨hx, hreleased⟩ := holds_releasedAll hx
    obtain hs | ⟨p, hp, rfl⟩ := h.owner k x hx
    · exact hs
    · rw [hsweep] at hp
      have hresolved := (h.races _ _ _ _ _ hsweep p hp).resolve_left nofun
      exact absurd (List.mem_map_of_mem
        (mem_filter.mpr ⟨hp, decide_eq_true hresolved⟩)) hreleased
  | rescan lag term lo sweep hsweep hnext =>
    have hrest : sweep.relocks = [] ∧ ∀ term' inDoubt' lo' gs' resolved',
        sweep ≠ .racing term' inDoubt' lo' gs' resolved' := by
      obtain rfl | ⟨-, rfl | rfl⟩ := hnext <;> exact ⟨rfl, nofun⟩
    refine h.same rfl rfl (by rw [hsweep]; exact hrest.1) ?_
    exact fun term' inDoubt' lo' gs' resolved' heq => absurd heq (hrest.2 _ _ _ _ _)
  | serve term hsweep => exact h.same rfl rfl (by rw [hsweep]; rfl) nofun
  | giveUp => exact h.same rfl rfl (Eq.symm hok) nofun

theorem answers_boot (kv : Store Row) (applied : ℕ) : (Node.boot kv applied).Answers where
  coherent _ := trivial
  owner k x := by
    rintro ⟨l, hl, -⟩
    cases hl
  races := nofun

theorem answers_step (h : ∀ m, (R.nodes m).Answers) (hok : RacesAnswered glob R act)
    (hstep : R.step glob act = some R') (m : NodeId) : (R'.nodes m).Answers := by
  have hturn := turned_step hstep m
  generalize R'.nodes m = node at hturn
  cases hturn with
  | same => exact h m
  | returned s b epoch after ok lag applied hact hpc =>
    have hmove : Move (R.env m (lag.view glob))
        ((R.nodes m).view s (R.storeAt (R.nodes m).applied)) (.apply ok) _ :=
      .apply ok b epoch after hpc
    exact answers_move (h m) hmove rfl rfl rfl
  | moved s a v lag hact ha hadm hmove => exact answers_move (h m) hmove rfl rfl rfl
  | boot => exact answers_boot _ _
  | settle hact hlead hclosed hidle => exact (h m).same rfl rfl (by rw [hidle]; rfl) nofun
  | advance term lo applied ok hact hold => exact (h m).same rfl rfl (by rw [hold]; rfl) nofun
  | tends node hpa hsess hintent ht => exact answers_tends (h m) hok ht

end Answers

/-- Where every race of an attempt is answered, the locks of a node that has settled belong to its
sessions. -/
theorem settled_locks_have_sessions (acts : List (ClusterAct Row)) (C : MultiRangeCluster Row)
    (r : RangeId) (n : NodeId)
    (hok : Runs.Along step (OnRange RacesAnswered) .initial
      (acts ++ [.on r (.serve n)]))
    (hrun : exec step .initial (acts ++ [.on r (.serve n)]) = some C)
    (k : RowKey) (x : Xid) (hx : ((C.ranges r).nodes n).lm.Holds k x) :
    ∃ s, holding (((C.ranges r).nodes n).sessions s) = some x := by
  have hI : ∀ m, ((C.ranges r).nodes m).Answers :=
    range_invariant (I := fun _ R => ∀ m, (R.nodes m).Answers)
      (fun _ _ _ _ hI hs hstep => answers_step hI hs hstep) (fun _ _ _ _ hI => hI)
      (fun _ => answers_boot _ _) hok hrun
  obtain hs | ⟨p, hp, -⟩ := (hI n).owner k x hx
  · exact hs
  · obtain ⟨C₀, -, hlast⟩ := exec_append.mp hrun
    obtain ⟨C₁, hserve, hend⟩ := exec_cons.mp hlast
    cases hend
    obtain ⟨R, hR, rfl⟩ := map_eq_some_iff.mp hserve
    change p ∈ ((Function.update C₀.ranges r R r).nodes n).sweep.relocks at hp
    rw [Function.update_self] at hp
    cases step_cases hR with
    | tended act m node hpa hsess hintent ht =>
      cases ht with
      | serve =>
        rw [nodes_setNode, if_pos rfl] at hp
        cases hp

section Runs

instance (glob : GlobalView) (R : Range Row) : DecidablePred (RacesAnswered glob R) := fun act => by
  induction act using RangeAct.casesOn <;> unfold RacesAnswered <;> infer_instance

/-- The race of the attempt wins, and a FOR UPDATE takes the row before the gate opens. -/
def racedRun : List (ClusterAct ℕ) :=
  inheritedRun ++ onRange 0 [.relock 0 noLag, .scan 0 noLag] ++ [.decide globalXidBase false] ++
    onRange 0 ([.raced 0 true, .unlock 0, .rescan 0 noLag, .advance 0 true] ++
      calls 0 2 [.begin false, .start lockAll, .takeSnapshot, .scan, .next, .acquire 0])

/-- The first attempt does not reach range 0 and fails. The coordinator commits, and the second
attempt finds nothing in doubt. -/
def decidedBetweenRun : List (ClusterAct ℕ) :=
  onRange 0 [.elect 0, .settle 0, .relock 0 noLag, .scan 0 noLag, .raced 0 false, .unlock 0,
      .rescan 0 noLag] ++
    [.decide globalXidBase true] ++
    onRange 0 [.settle 0, .relock 0 noLag, .scan 0 noLag, .unlock 0, .rescan 0 noLag,
      .advance 0 true, .serve 0]

def isCall : ClusterAct Row → Bool
  | .on _ (.call _ _ _ _) => true
  | _ => false

theorem sess_new_exec {acts : List (ClusterAct Row)} {C C' : MultiRangeCluster Row} {r : RangeId}
    {n : NodeId} (hcalls : acts.all (fun a => !isCall a) = true)
    (h0 : ∀ s, (C.ranges r).sess n s = .new)
    (h : exec step C acts = some C') (s : SessionId) :
    (C'.ranges r).sess n s = .new := by
  have hok : Along step
      (OnRange fun _ _ a => isCall (.on r a) = false) C acts := by
    refine along_imp (fun a ha s _ => ?_) (along_trivial (fun _ _ => trivial) C acts)
    have hcall := all_eq_true.mp hcalls a ha
    cases a with
    | decide => trivial
    | on r' a => cases a <;> first | rfl | cases hcall
  refine range_invariant (I := fun _ R => ∀ s, R.sess n s = .new) ?_ (fun _ _ _ _ hI => hI) h0
    hok h s
  intro glob R a R' hI hcall hstep s
  have hb := became_step hstep n s
  generalize R'.sess n s = u at hb
  cases hb with
  | same => exact hI s
  | new => rfl
  | returned b epoch after ok lag hact | moved a v lag hact =>
    subst hact
    cases hcall

end Runs

/-- The lock of xid 3 on the row has its session. -/
theorem settled_locks_have_sessions_raced : ∃ C : MultiRangeCluster ℕ,
      exec step initial
        (racedRun ++ [.on 0 (.serve 0)]) = some C ∧
      ((C.ranges 0).nodes 0).lm.locks (1, 1) = some ⟨.exclusive, [3]⟩ ∧
      ∃ s, holding (((C.ranges 0).nodes 0).sessions s) = some 3 := by
  obtain ⟨C, hC, hlock⟩ : ∃ C ∈ exec step initial
      (racedRun ++ [.on 0 (.serve 0)]),
        ((C.ranges 0).nodes 0).lm.locks (1, 1) = some ⟨.exclusive, [3]⟩ := by decide +kernel
  have hok : Along step (OnRange RacesAnswered)
      (initial : MultiRangeCluster ℕ) (racedRun ++ [.on 0 (.serve 0)]) := by
    decide +kernel
  exact ⟨C, hC, hlock, settled_locks_have_sessions _ C 0 0 hok hC (1, 1) 3
    ⟨_, hlock, mem_singleton.mpr rfl⟩⟩

/-- The gate is open, the global transaction of xid 2 is committed, no session has xid 2, and its
lock on the row remains. -/
theorem settled_lock_without_session : ∃ C : MultiRangeCluster ℕ,
      exec step initial
        ((.on 0 (.elect 0) :: stagedUpdateRun) ++ [.on 0 (.crash 0)] ++ decidedBetweenRun) =
          some C ∧
      (C.ranges 0).serving 0 = true ∧ (C.ranges 0).tip.clogGet 2 = .prepared globalXidBase ∧
      C.glob.clog globalXidBase = .committed ∧
      ((C.ranges 0).nodes 0).lm.Holds (1, 1) 2 ∧
      ∀ s, holding (((C.ranges 0).nodes 0).sessions s) ≠ some 2 := by
  obtain ⟨C, hC, hserving, hmark, hglob, hlock⟩ :
      ∃ C ∈ exec step initial
        ((.on 0 (.elect 0) :: stagedUpdateRun) ++ [.on 0 (.crash 0)] ++ decidedBetweenRun),
        (C.ranges 0).serving 0 = true ∧ (C.ranges 0).tip.clogGet 2 = .prepared globalXidBase ∧
        C.glob.clog globalXidBase = .committed ∧
        ((C.ranges 0).nodes 0).lm.locks (1, 1) = some ⟨.exclusive, [2]⟩ := by decide +kernel
  refine ⟨C, hC, hserving, hmark, hglob, ⟨_, hlock, mem_singleton.mpr rfl⟩, fun s => ?_⟩
  obtain ⟨C₁, hcrashed, hrest⟩ := exec_append.mp hC
  obtain ⟨C₀, -, hcrash⟩ := exec_append.mp hcrashed
  cases hcrash
  have hnew := sess_new_exec (r := 0) (n := 0) (by decide) (fun s => ?_) hrest s
  · change holding ((C.ranges 0).sess 0 s) ≠ some 2
    rw [hnew]
    nofun
  · change ((Function.update C₀.ranges 0 ((C₀.ranges 0).crash 0) 0).nodes 0).sessions s = _
    rw [Function.update_self, nodes_crash, if_pos rfl]
    rfl

end Crabgresql.Cluster
