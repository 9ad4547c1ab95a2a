import Crabgresql.Moves

/-!
# The xids a session holds

What a session on a replicated engine knows of xids, whatever the other sessions
do: its own xid is below the engine's counter, the creators of the versions it
is about to supersede are below the durable counter, and a batch that carries
the counter carries a value above its own xid.
-/

namespace Crabgresql.Cluster

open Mvcc Kv Procarray Lockmgr Exec Session

variable {Row : Type}
variable {x : Xid} {b : Batch Row} {u : Sess Row} {f : Frame Row} {epoch : ℕ} {after : After}

/-- The block of the session, if it has an xid, is the one whose statement is under way. -/
def Coherent (u : Sess Row) : Prop :=
  match u.pc with
  | .ready => True
  | .starting _ x autocommit => u.txn.localXid = if autocommit then none else some x
  | .scanning f | .looping f | .acquiring f _ | .locked f _ =>
    u.txn.localXid = if f.autocommit then none else some f.xid
  | .committing _ _ (.close _) => u.txn.localXid = none
  | .committing b _ .keep | .committing b _ .enlist => u.txn.localXid = some b.xid
  | .preparing x => u.txn.localXid = some x
  | .finishing _ _ | .releasing _ _ => u.txn.localXid = none

def target : Change Row → Option Xid
  | .insert _ _ => none
  | .update _ curXmin _ _ | .delete _ curXmin _ => some curXmin

def SeqOnly (ops : List (WriteOp Row)) : Prop := ∀ op ∈ ops, ∃ t n, op = .counter (.seq t) n

def Fits (b : Batch Row) : After → Prop
  | .keep => b.outcome = none ∨ ∃ g, b.outcome = some (.prepared g)
  | .enlist => ∃ g, b.outcome = some (.prepared g)
  | .close ack => b.outcome = some (if ack then .committed else .aborted)

def Targets (lo : ℕ) (cs : List (Change Row)) : Prop := ∀ c ∈ cs, ∀ y, target c = some y → y < lo

structure BatchOk (next lo : ℕ) (b : Batch Row) : Prop where
  seqOps : SeqOnly b.seqOps
  targets : Targets lo b.changes
  fold : ∀ n, b.nextXid = some n → b.xid < n ∧ n ≤ next
  xid : b.xid < next

structure Bounded (next lo : ℕ) (u : Sess Row) : Prop where
  coherent : Coherent u
  xid : ∀ x, activeXid u = some x → x < next
  frame : ∀ f, u.pc.frame = some f → SeqOnly f.seqOps ∧ Targets lo f.changes
  batch : ∀ b epoch after, u.pc = .committing b epoch after → BatchOk next lo b ∧ Fits b after

theorem seqOnly_nil : SeqOnly ([] : List (WriteOp Row)) := fun op h => by cases h

theorem targets_nil (lo : ℕ) : Targets lo ([] : List (Change Row)) := fun c h => by cases h

variable {next lo : ℕ}

theorem BatchOk.mono {next' lo' : ℕ} (h : BatchOk next lo b) (hn : next ≤ next')
    (hl : lo ≤ lo') : BatchOk next' lo' b where
  seqOps := h.seqOps
  targets c hc y hy := lt_of_lt_of_le (h.targets c hc y hy) hl
  fold n hn' := ⟨(h.fold n hn').1, le_trans (h.fold n hn').2 hn⟩
  xid := lt_of_lt_of_le h.xid hn

theorem Bounded.mono {next' lo' : ℕ} (h : Bounded next lo u) (hn : next ≤ next')
    (hl : lo ≤ lo') : Bounded next' lo' u where
  coherent := h.coherent
  xid x hx := lt_of_lt_of_le (h.xid x hx) hn
  frame f hf := ⟨(h.frame f hf).1, fun c hc y hy => lt_of_lt_of_le ((h.frame f hf).2 c hc y hy) hl⟩
  batch b epoch after hpc := ⟨(h.batch b epoch after hpc).1.mono hn hl, (h.batch b epoch after hpc).2⟩

theorem bounded_new : Bounded next lo (Sess.new : Sess Row) where
  coherent := trivial
  xid x hx := by cases hx
  frame f hf := by cases hf
  batch b epoch after hpc := by cases hpc

theorem batchOk_record {st : XidStatus} {n : Option Xid} (hx : x < next)
    (hn : ∀ m, n = some m → m = next) : BatchOk next lo (.record x st n : Batch Row) where
  seqOps := seqOnly_nil
  targets := targets_nil lo
  fold m hm := by
    obtain rfl := hn m hm
    exact ⟨hx, le_rfl⟩
  xid := hx

/-- A statement under way: its xid is the session's, and belongs to the block unless the statement
is an autocommit one. -/
theorem frame_coherent (h : Coherent u) (hpc : u.pc.frame = some f) :
    activeXid u = some f.xid ∧ u.txn.localXid = if f.autocommit then none else some f.xid := by
  unfold Coherent at h
  unfold activeXid
  cases hp : u.pc <;> rw [hp] at hpc h <;> cases hpc <;> exact ⟨rfl, h⟩

theorem evalPlanQual_found {kv : Store Row} {glob : GlobalView} {pa : ProcArray} {snap : Snapshot}
    {k : RowKey} {rr : Bool} {found : Xid × Row}
    (h : evalPlanQual kv glob pa snap k x rr = .ok (some found)) :
    ∃ t ∈ kv.rowVersions k, t.xmin = found.1 := by
  unfold evalPlanQual at h
  split_ifs at h
  · obtain ⟨t, ht, -, hv⟩ := findVisibleOne_some _ _ _ (Except.ok.inj h)
    exact ⟨t, ht, by rw [hv]⟩
  · obtain ⟨t, ht, -, hv⟩ := findVisibleOne_some _ _ _ (Except.ok.inj h)
    exact ⟨t, ht, by rw [hv]⟩

theorem targets_insertChanges {t : TableId} {start : ℕ}
    {rows : List (Except ExecError Row)} {cs : List (Change Row)}
    (h : insertChanges t start rows = .ok cs) : Targets lo cs := by
  intro c hc y hy
  obtain ⟨r, row, rfl, -⟩ := (insertChanges_ok h).2 c hc
  cases hy

theorem target_change {w : Work Row} {k : RowKey} {found : Xid × Row} {c : Change Row}
    (h : w.change k found = .ok (some c)) : target c = some found.1 ∧ c.key = k := by
  rcases Work.change_some h with ⟨t, filter, set, next, -, -, rfl⟩ | ⟨t, filter, -, rfl⟩ <;>
    exact ⟨rfl, rfl⟩

end Crabgresql.Cluster

namespace Crabgresql.Session

open Mvcc Kv Procarray Lockmgr Exec Cluster View

variable {Row : Type} {x : Xid} {f : Frame Row} {u : Sess Row}
variable {env : Env} {v v' : View Row} {a : Act Row}

def holding (u : Sess Row) : Option Xid :=
  match u.pc with
  | .releasing x _ => some x
  | _ => activeXid u

/-- What a step does to the running set and the locks, seen from the session that takes it. -/
inductive Handles (v v' : View Row) : Prop
  | keep (hact : activeXid v'.self = activeXid v.self) (hhold : holding v'.self = holding v.self)
      (hpa : v'.pa = v.pa)
      (hlm : ∀ k y, v'.lm.Holds k y → v.lm.Holds k y ∨ activeXid v.self = some y)
  | alloc (hnone : holding v.self = none) (hact : activeXid v'.self = some v.pa.nextXid)
      (hpa : v'.pa = ⟨v.pa.nextXid + 1, ProcArray.register v.pa.running v.pa.nextXid⟩)
      (hlm : v'.lm = v.lm)
  | deregister (x : Xid) (hold : activeXid v.self = some x) (hhold : holding v'.self = some x)
      (hpa : v'.pa = v.pa.finish x) (hlm : v'.lm = v.lm)
  | release (x : Xid) (hhold : holding v.self = some x) (hnone : activeXid v.self = none)
      (hnew : holding v'.self = none) (hpa : v'.pa = v.pa) (hlm : v'.lm = v.lm.releaseAll x)
  | abandon (x : Xid) (hold : activeXid v.self = some x) (hnew : holding v'.self = none)
      (hpa : v'.pa = v.pa.finish x) (hlm : v'.lm = v.lm.releaseAll x)

theorem holding_ready (h : u.pc = .ready) : holding u = u.txn.localXid := by
  unfold holding activeXid
  rw [h]

theorem activeXid_ready (h : u.pc = .ready) : activeXid u = u.txn.localXid := by
  unfold activeXid
  rw [h]

theorem holding_of_activeXid (h : activeXid u = some x) : holding u = some x := by
  unfold holding
  split
  · rename_i y ack hpc
    unfold activeXid at h
    rw [hpc] at h
    cases h
  · exact h

theorem activeXid_of_holding_none (h : holding u = none) : activeXid u = none := by
  unfold holding at h
  split at h
  · cases h
  · exact h

theorem Handles.quiet (hpa : v'.pa = v.pa) (hlm : v'.lm = v.lm)
    (hact : activeXid v'.self = activeXid v.self) (hhold : holding v'.self = holding v.self) :
    Handles v v' := by
  refine .keep hact hhold hpa fun k y hy => ?_
  rw [hlm] at hy
  exact .inl hy

theorem Handles.carry (hpa : v'.pa = v.pa) (hlm : v'.lm = v.lm) (hold : activeXid v.self = some x)
    (hnew : activeXid v'.self = some x) : Handles v v' := by
  refine .quiet hpa hlm (hnew.trans hold.symm) ?_
  rw [holding_of_activeXid hnew, holding_of_activeXid hold]

theorem Handles.goOn (hpa : v'.pa = v.pa) (hlm : ∀ k y, v'.lm.Holds k y → v.lm.Holds k y ∨ y = x)
    (hold : activeXid v.self = some x) (hnew : activeXid v'.self = some x) : Handles v v' := by
  refine .keep (hnew.trans hold.symm) ?_ hpa fun k y hy => ?_
  · rw [holding_of_activeXid hnew, holding_of_activeXid hold]
  · rcases hlm k y hy with hy | rfl
    · exact .inl hy
    · exact .inr hold

theorem handles_fail {lm : LockMgr} {kv : Store Row} {seq : SequenceManager} (hc : Coherent v.self)
    (hf : v.self.pc.frame = some f) (hlm : ∀ k y, lm.Holds k y → v.lm.Holds k y ∨ y = f.xid)
    (e : ExecError) :
    Coherent (⟨v.self.txn.fail, v.self.globalXid, failPc env f, some e⟩ : Sess Row) ∧
      Handles v ⟨kv, v.pa, lm, seq, ⟨v.self.txn.fail, v.self.globalXid, failPc env f, some e⟩⟩ := by
  obtain ⟨hact, hloc⟩ := frame_coherent hc hf
  rw [← localXid_fail] at hloc
  unfold failPc
  cases hauto : f.autocommit with
  | true =>
    rw [hauto] at hloc
    cases f.work.isWrite <;> exact ⟨hloc, .goOn rfl hlm hact rfl⟩
  | false =>
    rw [hauto] at hloc
    exact ⟨trivial, .goOn rfl hlm hact hloc⟩

theorem handles_frame {f' : Frame Row} {pc : Pc Row} {kv : Store Row} {lm : LockMgr}
    {seq : SequenceManager} (hc : Coherent v.self) (hf : v.self.pc.frame = some f)
    (hpc : pc.frame = some f') (hx : f'.xid = f.xid) (hauto : f'.autocommit = f.autocommit)
    (hlm : ∀ k y, lm.Holds k y → v.lm.Holds k y ∨ y = f.xid) :
    Coherent ({ v.self with pc := pc } : Sess Row) ∧
      Handles v ⟨kv, v.pa, lm, seq, { v.self with pc := pc }⟩ := by
  obtain ⟨hact, hloc⟩ := frame_coherent hc hf
  rw [← hx, ← hauto] at hloc
  have hnew : Coherent ({ v.self with pc := pc } : Sess Row) := by
    unfold Coherent
    cases pc <;> cases hpc <;> exact hloc
  refine ⟨hnew, .goOn rfl hlm hact ?_⟩
  rw [(frame_coherent hnew hpc).1, hx]

theorem frame_returned (u : Sess Row) (b : Batch Row) (after : After) (ok : Bool) :
    (u.returned b after ok).pc.frame = none := by
  cases after <;> cases ok <;> simp only [Sess.returned] <;> try split_ifs
  all_goals rfl

theorem returned_not_committing (u : Sess Row) (b : Batch Row) (after : After) (ok : Bool)
    {b' : Batch Row} {epoch : ℕ} {after' : After} :
    (u.returned b after ok).pc ≠ .committing b' epoch after' := by
  cases after <;> cases ok <;> simp only [Sess.returned] <;> try split_ifs
  all_goals simp

theorem Move.handles (hm : Move env v a v') (hc : Coherent v.self) :
    Coherent v'.self ∧ Handles v v' := by
  have hown : ∀ f : Frame Row, ∀ k y, v.lm.Holds k y → v.lm.Holds k y ∨ y = f.xid :=
    fun f k y => .inl
  obtain ⟨kv, pa, lm, seq, txn, gx, pc, err⟩ := v
  cases hm with
  | still a txn' err' hpc hx =>
    obtain rfl : pc = .ready := hpc
    exact ⟨trivial, .quiet rfl rfl hx hx⟩
  | alloc w autocommit txn' hpc hnone htxn =>
    obtain rfl : pc = .ready := hpc
    refine ⟨?_, .alloc hnone rfl rfl rfl⟩
    cases autocommit with
    | true => rw [show txn' = .idle from htxn]; rfl
    | false =>
      obtain ⟨c, -, rfl⟩ := htxn
      rfl
  | resume w x c hpc htxn hx =>
    obtain rfl : pc = .ready := hpc
    obtain rfl : txn = .inTransaction c := htxn
    exact ⟨hx, .carry rfl rfl hx rfl⟩
  | read w x autocommit f txn' hpc hx hw hauto htodo hchanges hops htxn =>
    obtain rfl : pc = .starting w x autocommit := hpc
    refine ⟨?_, .carry rfl rfl rfl (congrArg some hx)⟩
    change txn'.localXid = if f.autocommit then none else some f.xid
    rw [hauto, hx]
    rcases htxn with ⟨-, rfl⟩ | ⟨-, c, S, hc', rfl⟩
    · exact hc
    · obtain rfl : txn = .inTransaction c := hc'
      exact hc
  | fill f t rows cs seq' n hpc | target f todo r hpc | take f r found c hpc =>
    exact handles_frame hc (f := f) (by rw [hpc]; rfl) rfl rfl rfl (hown f)
  | walk a f todo hpc =>
    refine handles_frame hc (f := f) ?_ rfl rfl rfl (hown f)
    rcases hpc with hpc | hpc | ⟨r, hpc⟩ <;> rw [hpc] <;> rfl
  | grant f r pick lm' hpc ho =>
    exact handles_frame hc (f := f) (by rw [hpc]; rfl) rfl rfl rfl fun k y => LockMgr.acquire_holds ho
  | wait f r pick lm' hpc ho =>
    refine ⟨hc, .keep rfl rfl rfl fun k y hy => (LockMgr.acquire_holds ho hy).imp id ?_⟩
    rintro rfl
    exact (frame_coherent hc (f := f) (by rw [hpc]; rfl)).1
  | fail a f e lm' seq' hpc hlm =>
    refine handles_fail hc hpc ?_ e
    rcases hlm with rfl | ⟨r, pick, -, ho⟩
    · exact hown f
    · exact fun k y => LockMgr.acquire_holds ho
  | done f hpc =>
    obtain rfl : pc = .looping f := hpc
    have hloc : txn.localXid = if f.autocommit then none else some f.xid := hc
    cases hauto : f.autocommit with
    | true =>
      rw [hauto] at hloc
      exact ⟨hloc, .carry rfl rfl rfl rfl⟩
    | false =>
      rw [hauto] at hloc
      exact ⟨trivial, .carry rfl rfl rfl hloc⟩
  | submit f hpc hw hauto =>
    obtain rfl : pc = .looping f := hpc
    simp only [Coherent, hauto] at hc
    exact ⟨hc, .carry rfl rfl rfl rfl⟩
  | stage f c rows marker hpc hw hauto htxn =>
    obtain rfl : pc = .looping f := hpc
    obtain rfl : txn = .inTransaction c := htxn
    simp only [Coherent, hauto] at hc
    exact ⟨hc, .carry rfl rfl rfl rfl⟩
  | commit x c hpc htxn hx =>
    obtain rfl : pc = .ready := hpc
    obtain rfl : txn = .inTransaction c := htxn
    exact ⟨rfl, .carry rfl rfl hx rfl⟩
  | abort a ha x hpc hx =>
    obtain rfl : pc = .ready := hpc
    exact ⟨rfl, .carry rfl rfl hx rfl⟩
  | apply ok b epoch after hpc =>
    obtain rfl : pc = .committing b epoch after := hpc
    cases after with
    | keep =>
      cases ok with
      | true =>
        cases gx with
        | none => exact ⟨trivial, .carry rfl rfl rfl hc⟩
        | some => exact ⟨hc, .carry rfl rfl rfl rfl⟩
      | false => exact ⟨trivial, .carry rfl rfl rfl ((localXid_fail txn).trans hc)⟩
    | enlist =>
      cases ok with
      | true => exact ⟨hc, .carry rfl rfl rfl rfl⟩
      | false => exact ⟨trivial, .carry rfl rfl rfl hc⟩
    | close => cases ok <;> exact ⟨hc, .carry rfl rfl rfl rfl⟩
  | prepared x hpc =>
    obtain rfl : pc = .preparing x := hpc
    exact ⟨trivial, .deregister x rfl hc rfl rfl⟩
  | finish x ack hpc =>
    obtain rfl : pc = .finishing x ack := hpc
    exact ⟨hc, .deregister x rfl rfl rfl rfl⟩
  | release x ack hpc =>
    obtain rfl : pc = .releasing x ack := hpc
    exact ⟨trivial, .release x rfl rfl hc rfl rfl⟩
  | joinIdle g hpc =>
    obtain rfl : pc = .ready := hpc
    exact ⟨trivial, .quiet rfl rfl rfl rfl⟩
  | join g x eff hpc hx =>
    obtain rfl : pc = .ready := hpc
    exact ⟨hx, .carry rfl rfl hx rfl⟩
  | leave hpc hx =>
    obtain rfl : pc = .ready := hpc
    exact ⟨trivial, .quiet rfl rfl hx.symm hx.symm⟩
  | drop x hpc hx =>
    obtain rfl : pc = .ready := hpc
    exact ⟨trivial, .abandon x hx rfl rfl rfl⟩

end Crabgresql.Session

namespace Crabgresql.Cluster

open Mvcc Kv Procarray Lockmgr Exec Session

variable {Row : Type}
variable {x : Xid} {b : Batch Row} {u : Sess Row} {f : Frame Row} {epoch : ℕ} {after : After}

section Step

variable {env : Env} {v v' : View Row} {a : Act Row} {lo : ℕ}

/-- Only a statement that starts allocates; every other move keeps the session's xid or ends its
transaction. -/
theorem Move.activeXid_cases (hm : Move env v a v') (h : Coherent v.self) :
    ((activeXid v'.self = activeXid v.self ∨ activeXid v'.self = none) ∧
        v'.pa.nextXid = v.pa.nextXid) ∨
      (activeXid v.self = none ∧ activeXid v'.self = some v.pa.nextXid ∧
        v'.pa.nextXid = v.pa.nextXid + 1 ∧ ∃ w, a = .start w) := by
  cases (Move.handles hm h).2 with
  | keep hact _ hpa => exact .inl ⟨.inl hact, by rw [hpa]⟩
  | alloc hnone hact hpa =>
    have hn : v'.pa.nextXid = v.pa.nextXid + 1 := by rw [hpa]
    refine .inr ⟨activeXid_of_holding_none hnone, hact, hn, ?_⟩
    cases hm with
    | alloc w => exact ⟨w, rfl⟩
    | _ => exact absurd hn (Nat.succ_ne_self _).symm
  | deregister x hold hhold hpa =>
    refine .inl ⟨?_, by rw [hpa, ProcArray.nextXid_finish]⟩
    unfold holding at hhold
    split at hhold
    · rename_i y ack hpc
      refine .inr ?_
      unfold activeXid
      rw [hpc]
    · exact .inl (hhold.trans hold.symm)
  | release x hhold hnone hnew hpa => exact .inl ⟨.inr (activeXid_of_holding_none hnew), by rw [hpa]⟩
  | abandon x hold hnew hpa =>
    exact .inl ⟨.inr (activeXid_of_holding_none hnew), by rw [hpa, ProcArray.nextXid_finish]⟩

theorem Move.committing (hm : Move env v a v') (h : Coherent v.self)
    (hpc' : v'.self.pc = .committing b epoch after) :
    epoch = env.epoch ∧ activeXid v.self = some b.xid := by
  have hready : v.self.pc = .ready → activeXid v.self = v.self.txn.localXid := by
    intro hpc
    unfold activeXid
    rw [hpc]
  have hframe : ∀ f, v.self.pc.frame = some f → activeXid v.self = some f.xid :=
    fun f hf => (frame_coherent h hf).1
  cases hm with
  | wait f r pick lm hpc =>
    rw [hpc] at hpc'
    cases hpc'
  | fail a f e lm seq hpc =>
    unfold failPc at hpc'
    split_ifs at hpc'
    cases hpc'
    exact ⟨rfl, hframe f hpc⟩
  | done =>
    simp only at hpc'
    split_ifs at hpc'
  | submit f hpc | stage f c rows marker hpc =>
    cases hpc'
    exact ⟨rfl, hframe f (by rw [hpc]; rfl)⟩
  | commit x c hpc htxn hx =>
    cases hpc'
    exact ⟨rfl, by rw [hready hpc, htxn]; exact hx⟩
  | abort a ha x hpc hx | join g x eff hpc hx =>
    cases hpc'
    exact ⟨rfl, by rw [hready hpc]; exact hx⟩
  | apply => exact absurd hpc' (returned_not_committing _ _ _ _)
  | _ => cases hpc'

theorem Move.frame (hm : Move env v a v') (hkv : ∀ k, ∀ t ∈ v.kv.rowVersions k, t.xmin < lo)
    (h : ∀ f, v.self.pc.frame = some f → SeqOnly f.seqOps ∧ Targets lo f.changes)
    (hf : v'.self.pc.frame = some f) : SeqOnly f.seqOps ∧ Targets lo f.changes := by
  cases hm with
  | read w x auto f' txn hpc hx hw hauto htodo hchanges hops =>
    cases hf
    exact ⟨hops ▸ seqOnly_nil, hchanges ▸ targets_nil lo⟩
  | fill f' t rows cs seq n hpc hw hcs =>
    cases hf
    exact ⟨fun op hop => ⟨t, n, List.mem_singleton.mp hop⟩, targets_insertChanges hcs⟩
  | walk a f' todo hpc =>
    cases hf
    refine h f' ?_
    rcases hpc with hpc | hpc | ⟨r, hpc⟩ <;> rw [hpc] <;> rfl
  | target f' todo r hpc =>
    cases hf
    exact h f' (by rw [hpc]; rfl)
  | grant f' r pick lm hpc =>
    cases hf
    exact h f (by rw [hpc]; rfl)
  | wait => exact h f hf
  | take f' r found c hpc hfound hc =>
    cases hf
    obtain ⟨hseq, htargets⟩ := h f' (by rw [hpc]; rfl)
    refine ⟨hseq, fun c' hc' y hy => ?_⟩
    rcases List.mem_append.mp hc' with hmem | hmem
    · exact htargets c' hmem y hy
    · obtain rfl := List.mem_singleton.mp hmem
      rw [(target_change hc).1] at hy
      obtain ⟨t, ht, hx⟩ := evalPlanQual_found hfound
      cases hy
      exact hx ▸ hkv _ t ht
  | fail | done =>
    simp only [failPc] at hf
    split_ifs at hf <;> cases hf
  | apply ok b epoch after => cases (frame_returned ..).symm.trans hf
  | _ => cases hf

theorem Move.batch (hm : Move env v a v') (h : Bounded v.pa.nextXid lo v.self)
    (hpc' : v'.self.pc = .committing b epoch after) : BatchOk v'.pa.nextXid lo b ∧ Fits b after := by
  have hx : b.xid < v.pa.nextXid := h.xid b.xid (Move.committing hm h.coherent hpc').2
  cases hm with
  | wait => exact h.batch b epoch after hpc'
  | fail =>
    unfold failPc at hpc'
    split_ifs at hpc'
    cases hpc'
    exact ⟨batchOk_record hx nofun, rfl⟩
  | done =>
    simp only at hpc'
    split_ifs at hpc'
  | submit f hpc =>
    cases hpc'
    obtain ⟨hseq, htargets⟩ := h.frame f (by rw [hpc]; rfl)
    exact ⟨⟨hseq, htargets, fun n hn => by cases hn; exact ⟨hx, le_rfl⟩, hx⟩, rfl⟩
  | stage f c rows marker hpc =>
    cases hpc'
    obtain ⟨hseq, htargets⟩ := h.frame f (by rw [hpc]; rfl)
    refine ⟨⟨hseq, htargets, fun n hn => by cases hn; exact ⟨hx, le_rfl⟩, hx⟩, ?_⟩
    cases marker with
    | none => exact .inl rfl
    | some g => exact .inr ⟨g, rfl⟩
  | commit =>
    cases hpc'
    exact ⟨batchOk_record hx fun m hm => by cases hm; rfl, rfl⟩
  | abort =>
    cases hpc'
    exact ⟨batchOk_record hx nofun, rfl⟩
  | join g x eff =>
    cases hpc'
    exact ⟨batchOk_record hx nofun, eff, rfl⟩
  | apply => exact absurd hpc' (returned_not_committing _ _ _ _)
  | _ => cases hpc'

/-- A session keeps its bounds along every move over a store whose versions were created below
the durable counter. -/
theorem Move.bounded (hm : Move env v a v')
    (hkv : ∀ k, ∀ t ∈ v.kv.rowVersions k, t.xmin < lo) (h : Bounded v.pa.nextXid lo v.self) :
    Bounded v'.pa.nextXid lo v'.self where
  coherent := (Move.handles hm h.coherent).1
  xid x hx := by
    rcases Move.activeXid_cases hm h.coherent with ⟨hsame | hnone, hn⟩ | ⟨-, hnew, hn, -⟩ <;> rw [hn]
    · exact h.xid x (hsame ▸ hx)
    · rw [hnone] at hx
      cases hx
    · rw [hnew] at hx
      cases hx
      exact Nat.lt_succ_self _
  frame f hf := Move.frame hm hkv h.frame hf
  batch b epoch after hpc := Move.batch hm h hpc

theorem apply_move (hpc : u.pc = .committing b epoch after) (next : ℕ) (ok : Bool) :
    Move ⟨⟨.replicated, false⟩, ⟨fun _ => .inProgress, 0⟩, 0⟩
      ⟨Store.empty, ⟨next, []⟩, LockMgr.new, SequenceManager.new, u⟩ (.apply ok)
      ⟨if ok then applyBatch Store.empty b.ops else Store.empty, ⟨next, []⟩, LockMgr.new,
        SequenceManager.new, u.returned b after ok⟩ := .apply ok b epoch after hpc

theorem coherent_returned (h : Coherent u) (hpc : u.pc = .committing b epoch after) (ok : Bool) :
    Coherent (u.returned b after ok) := (Move.handles (apply_move hpc 0 ok) h).1

theorem Bounded.returned {next : ℕ} (h : Bounded next lo u) (hpc : u.pc = .committing b epoch after)
    (ok : Bool) : Bounded next lo (u.returned b after ok) :=
  Move.bounded (apply_move hpc next ok) (fun _ _ ht => by cases ht) h

end Step

end Crabgresql.Cluster
