import Crabgresql.Reads
import Crabgresql.Cluster.Atomicity
import Crabgresql.Cluster.Watermark

/-!
# REPEATABLE READ on an engine of a multi-range cluster

One engine with its sessions and the replica of range 0 that it reads. A
REPEATABLE READ block fixes its local snapshot and its global one at BEGIN. The
global snapshot is a horizon with nobody running below it, so a marker whose
global transaction is below the horizon is resolved by the decision of the day.
A read repeats if no such decision arrives.
-/

namespace Crabgresql.MultiRange

open Mvcc Kv Procarray Lockmgr Exec Session Engine Reads Cluster Function List Runs Option

variable {Row : Type}
variable {x y : Xid} {k : RowKey}

structure RangeEngine (Row : Type) where
  glob : GlobalView
  engine : SqlEngine Row

/-- A session's step, a decision that the replica of range 0 applies, or a value of the global xid
counter that it applies. -/
inductive EngineAct (Row : Type)
  | call (s : SessionId) (a : Act Row)
  | decide (g : Xid) (commit : Bool)
  | counter (next : Xid)

namespace RangeEngine

def initial : RangeEngine Row := ⟨.initial, .boot .empty⟩

def env (E : RangeEngine Row) : Env := ⟨⟨.replicated, true⟩, E.glob, 1⟩

def step (E : RangeEngine Row) : EngineAct Row → Option (RangeEngine Row)
  | .call s a => (E.engine.step E.env s a).map fun e => { E with engine := e }
  | .decide g commit => some { E with glob := recordDecision E.glob g commit }
  | .counter next => some { E with glob := { E.glob with nextGlobal := next } }

def rows (E : RangeEngine Row) (s : SessionId) (t : TableId) : Option (List (RowId × Row)) :=
  selectRows E.env (E.engine.view s) t

end RangeEngine

/-- Recorded as committed, locally or through the decision of its global transaction. -/
def isCommitted (kv : Store Row) (glob : GlobalView) (x : Xid) : Bool :=
  match kv.clogGet x with
  | .committed => true
  | .prepared g => decide (glob.clog g = .committed)
  | _ => false

def recordsCommit (glob : GlobalView) (b : Batch Row) : Bool :=
  match b.outcome with
  | some .committed => true
  | some (.prepared g) => decide (glob.clog g = .committed)
  | _ => false

/-- A change supersedes a stored version that neither a committed transaction nor the reader has
superseded. -/
def Current (kv : Store Row) (glob : GlobalView) (own : Option Xid) : Change Row → Prop
  | .insert _ _ => True
  | .update k y cur _ | .delete k y cur => ∃ t ∈ kv.version k y, t.row = cur ∧
      (t.xmax = invalidXid ∨ own ≠ some t.xmax ∧ isCommitted kv glob t.xmax = false)

instance [DecidableEq Row] (kv : Store Row) (glob : GlobalView) (own : Option Xid)
    (c : Change Row) : Decidable (Current kv glob own c) := by
  unfold Current
  split <;> infer_instance

/-- A batch of another transaction. One that had left the running set before the snapshot was taken
writes only as a participant that is not committed. -/
def Harmless (kv : Store Row) (glob : GlobalView) (c : TxnCtx) (b : Batch Row) : Prop :=
  c.xid ≠ some b.xid ∧
    (c.snapshot.canSee b.xid →
      isCommitted kv glob b.xid = false ∧ recordsCommit glob b = false) ∧
    ∀ ch ∈ b.changes, Current kv glob c.xid ch

instance [DecidableEq Row] (kv : Store Row) (glob : GlobalView) (c : TxnCtx) (b : Batch Row) :
    Decidable (Harmless kv glob c b) := by
  unfold Harmless
  infer_instance

def isSelect : Act Row → Bool
  | .select => true
  | _ => false

def applying (E : RangeEngine Row) (s : SessionId) : Act Row → Option (Batch Row)
  | .apply true =>
    match (E.engine.sessions s).pc with
    | .committing b _ _ => some b
    | _ => none
  | _ => none

/-- The steps under which a read with snapshot `c` and global snapshot `G` repeats: session `s` only
reads, the others write nothing that the snapshot sees, and no decision commits a global
transaction below the horizon that a settled transaction takes part in. -/
def Steady (s : SessionId) (c : TxnCtx) (G : Snapshot) (E : RangeEngine Row) : EngineAct Row → Prop
  | .call s' a =>
    (s' = s → isSelect a = true) ∧ ∀ b ∈ applying E s' a, Harmless E.engine.kv E.glob c b
  | .decide g commit => commit = true → (E.glob.clog g).isTerminal = false → G.isRunning g = true ∨
      ∀ x < c.snapshot.xmax, c.snapshot.canSee x → E.engine.kv.clogGet x ≠ .prepared g
  | .counter _ => True

instance [DecidableEq Row] (s : SessionId) (c : TxnCtx) (G : Snapshot) (E : RangeEngine Row)
    (act : EngineAct Row) : Decidable (Steady s c G E act) := by
  unfold Steady
  split <;> infer_instance

/-- The store is well formed and the sessions collect only sequence puts. -/
structure Shaped (E : RangeEngine Row) : Prop where
  formed : Formed E.engine.kv
  seqOps : ∀ s, SeqOnly (pcSeqOps (E.engine.sessions s).pc)

section Visibility

variable {kv : Store Row} {glob : GlobalView} {G : Snapshot} {c : TxnCtx} {b : Batch Row}

def sees (kv : Store Row) (glob : GlobalView) (G : Snapshot) (c : TxnCtx) (x : Xid) : Bool :=
  committedVisible x c.snapshot c.xid (globalStatus kv glob G)

theorem isCommitted_of_globalStatus (h : globalStatus kv glob G x = .committed) :
    isCommitted kv glob x = true := by
  unfold globalStatus at h
  unfold isCommitted
  split at h
  · rename_i g hg
    split_ifs at h
    rw [hg]
    exact decide_eq_true h
  · rw [h]

theorem sees_eq_false (hown : c.xid ≠ some x)
    (h : c.snapshot.canSee x → isCommitted kv glob x = false) : sees kv glob G c x = false := by
  rw [Bool.eq_false_iff]
  intro hsees
  rcases committedVisible_iff.mp hsees with hx | ⟨hsee, hst⟩
  · exact hown hx
  · exact absurd (isCommitted_of_globalStatus hst) (by rw [h hsee]; simp)

theorem isCommitted_applyBatch (hseq : SeqOnly b.seqOps) (hnow : isCommitted kv glob b.xid = false)
    (hrec : recordsCommit glob b = false) :
    isCommitted (applyBatch kv b.ops) glob b.xid = false := by
  unfold isCommitted
  rw [clogGet_applyBatch_ops hseq]
  unfold recordsCommit at hrec
  cases hout : b.outcome with
  | none => exact hnow
  | some st =>
    rw [hout] at hrec
    simp only [if_true, keepTerminal]
    split_ifs
    · exact hnow
    · cases st <;> simp_all

theorem globalStatus_applyBatch (hseq : SeqOnly b.seqOps) (hx : x ≠ b.xid) :
    globalStatus (applyBatch kv b.ops) glob G x = globalStatus kv glob G x := by
  unfold globalStatus
  rw [clogGet_applyBatch_ops hseq]
  cases b.outcome with
  | none => rfl
  | some => simp only [if_neg (Ne.symm hx)]

theorem Harmless.sees (h : Harmless kv glob c b) (hseq : SeqOnly b.seqOps) (x : Xid) :
    sees (applyBatch kv b.ops) glob G c x = MultiRange.sees kv glob G c x := by
  obtain ⟨hown, hsettled, -⟩ := h
  by_cases hx : x = b.xid
  · subst hx
    rw [sees_eq_false hown fun hs => (hsettled hs).1, sees_eq_false hown fun hs =>
      isCommitted_applyBatch hseq (hsettled hs).1 (hsettled hs).2]
  · unfold MultiRange.sees committedVisible
    rw [globalStatus_applyBatch hseq hx]

theorem Harmless.unseen (h : Harmless kv glob c b) : MultiRange.sees kv glob G c b.xid = false :=
  sees_eq_false h.1 fun hs => (h.2.1 hs).1

theorem isLive_iff_sees {t : Tuple Row} :
    isLive (globalStatus kv glob G) c.snapshot c.xid t = true ↔
      MultiRange.sees kv glob G c t.xmin = true ∧
        (t.xmax = invalidXid ∨ MultiRange.sees kv glob G c t.xmax = false) :=
  isLive_iff _ _ _

def shown (kv : Store Row) (glob : GlobalView) (G : Snapshot) (c : TxnCtx) (k : RowKey) (y : Xid) :
    Option Row :=
  liveAt kv (globalStatus kv glob G) c.snapshot c.xid k y

theorem version_rowOps_cases {ch : Change Row} {t : Tuple Row}
    (h : .version (versionKey k y) t ∈ ch.rowOps x) : y = x ∧ t.xmin = x ∨ ∃ cur, t = ⟨y, x, cur⟩ ∧
      ((∃ next, ch = .update k y cur next) ∨ ch = .delete k y cur) := by
  cases ch with
  | insert =>
    simp only [Change.rowOps, mem_singleton, WriteOp.version.injEq, versionKey_inj] at h
    obtain ⟨⟨-, rfl⟩, rfl⟩ := h
    exact .inl ⟨rfl, rfl⟩
  | update k' curXmin cur next =>
    simp only [Change.rowOps] at h
    split_ifs at h with hx
    · simp only [mem_singleton, WriteOp.version.injEq, versionKey_inj] at h
      obtain ⟨⟨-, rfl⟩, rfl⟩ := h
      exact .inl ⟨rfl, rfl⟩
    · simp only [mem_cons, not_mem_nil, or_false, WriteOp.version.injEq,
        versionKey_inj] at h
      rcases h with ⟨⟨rfl, rfl⟩, rfl⟩ | ⟨⟨-, rfl⟩, rfl⟩
      · exact .inr ⟨cur, rfl, .inl ⟨next, rfl⟩⟩
      · exact .inl ⟨rfl, rfl⟩
  | delete k' curXmin cur =>
    simp only [Change.rowOps, mem_singleton, WriteOp.version.injEq, versionKey_inj] at h
    obtain ⟨⟨rfl, rfl⟩, rfl⟩ := h
    exact .inr ⟨cur, rfl, .inr rfl⟩

theorem shown_eq_none (hf : Formed kv) (h : MultiRange.sees kv glob G c y = false) : shown kv glob G c k y = none := by
  cases hs : shown kv glob G c k y with
  | none => rfl
  | some =>
    obtain ⟨t, ht, hl, -⟩ := liveAt_eq_some.mp hs
    have hseen := (isLive_iff_sees.mp hl).1
    rw [hf k y t ht, h] at hseen
    cases hseen

theorem Current.stored {own : Option Xid} {ch : Change Row} {cur : Row} (h : Current kv glob own ch)
    (hch : (∃ next, ch = .update k y cur next) ∨ ch = .delete k y cur) :
    ∃ t, kv.version k y = some t ∧ t.row = cur ∧
      (t.xmax = invalidXid ∨ own ≠ some t.xmax ∧ isCommitted kv glob t.xmax = false) := by
  rcases hch with ⟨next, rfl⟩ | rfl <;> exact h

theorem Harmless.shown (h : Harmless kv glob c b) (hf : Formed kv) (hseq : SeqOnly b.seqOps)
    (k : RowKey) (y : Xid) :
    shown (applyBatch kv b.ops) glob G c k y = MultiRange.shown kv glob G c k y := by
  have hsees := h.sees (G := G) hseq
  have hf' : Formed (applyBatch kv b.ops) := formed_applyBatch (formedOp_ops hseq) hf
  rcases version_applyBatch kv b.ops k y with hsame | ⟨t', ht', hop⟩
  · refine ext fun row => ?_
    unfold MultiRange.shown
    rw [liveAt_eq_some, liveAt_eq_some, hsame]
    simp only [isLive_iff_sees, hsees]
  · obtain ⟨ch, hch, hop⟩ := version_mem_ops hseq hop
    rcases version_rowOps_cases hop with ⟨rfl, -⟩ | ⟨cur, rfl, hkind⟩
    · rw [shown_eq_none hf h.unseen, shown_eq_none hf' (by rw [hsees]; exact h.unseen)]
    · obtain ⟨t, ht, hrow, hxmax⟩ := (h.2.2 ch hch).stored hkind
      have hunseen : t.xmax = invalidXid ∨ MultiRange.sees kv glob G c t.xmax = false := by
        rcases hxmax with hx | ⟨hown, hcom⟩
        · exact .inl hx
        · exact .inr (sees_eq_false hown fun _ => hcom)
      refine ext fun row => ?_
      unfold MultiRange.shown
      rw [liveAt_eq_some, liveAt_eq_some, ht, ht']
      simp only [some.injEq, exists_eq_left', isLive_iff_sees, hsees, h.unseen, hrow,
        hf k y t ht, hunseen, or_true, and_true]

end Visibility

section Decisions

variable {kv : Store Row} {glob : GlobalView} {G : Snapshot} {c : TxnCtx}

/-- A decision changes the status of the participants of its own global transaction only, and of
those only from undecided. -/
theorem sees_recordDecision {g : Xid} {commit : Bool}
    (h : commit = true → (glob.clog g).isTerminal = false → G.isRunning g = true ∨
      ∀ x < c.snapshot.xmax, c.snapshot.canSee x → kv.clogGet x ≠ .prepared g) (x : Xid) :
    sees kv (recordDecision glob g commit) G c x = sees kv glob G c x := by
  unfold recordDecision
  by_cases hterm : (glob.clog g).isTerminal = true
  · rw [if_pos hterm]
  rw [if_neg hterm]
  rw [Bool.not_eq_true] at hterm
  rw [Bool.eq_iff_iff]
  unfold sees
  simp only [committedVisible_iff]
  refine or_congr_right (and_congr_right fun hsee => ?_)
  unfold globalStatus
  cases hx : kv.clogGet x with
  | prepared g' =>
    simp only
    by_cases hrun : G.isRunning g' = true
    · rw [if_pos hrun, if_pos hrun]
    rw [if_neg hrun, if_neg hrun]
    by_cases hg : g' = g
    · subst hg
      have hold : glob.clog g' ≠ .committed := by
        intro heq
        rw [heq] at hterm
        cases hterm
      simp only [update_self]
      cases commit with
      | false => simp [hold]
      | true =>
        rcases h rfl hterm with hr | hnone
        · exact absurd hr hrun
        · exact absurd hx (hnone x hsee.1 hsee)
    · simp only [update_of_ne hg]
  | _ => rfl

theorem shown_recordDecision {g : Xid} {commit : Bool}
    (h : commit = true → (glob.clog g).isTerminal = false → G.isRunning g = true ∨
      ∀ x < c.snapshot.xmax, c.snapshot.canSee x → kv.clogGet x ≠ .prepared g) (k : RowKey)
    (y : Xid) : shown kv (recordDecision glob g commit) G c k y = shown kv glob G c k y := by
  have hsees := sees_recordDecision h
  refine ext fun row => ?_
  unfold shown
  rw [liveAt_eq_some, liveAt_eq_some]
  simp only [isLive_iff_sees, hsees]

end Decisions

section Steps

variable {E E' : RangeEngine Row} {s : SessionId}

theorem call_cases {a : Act Row} (h : E.step (.call s a) = some E') : E'.glob = E.glob ∧
      ∃ v, Move E.env (E.engine.view s) a v ∧ E'.engine = E.engine.set s v ∧
        (v.kv = E.engine.kv ∨ ∃ b ∈ applying E s a, v.kv = applyBatch E.engine.kv b.ops) := by
  simp only [RangeEngine.step, SqlEngine.step, map_eq_some_iff] at h
  obtain ⟨e, ⟨v, hv, rfl⟩, rfl⟩ := h
  have hm : Move E.env (E.engine.view s) a v := step_move rfl hv
  refine ⟨rfl, v, hm, rfl, ?_⟩
  cases hm with
  | apply ok b epoch after hpc =>
    cases ok with
    | true =>
      refine .inr ⟨b, ?_, rfl⟩
      have hpc' : (E.engine.sessions s).pc = .committing b epoch after := hpc
      simp [applying, hpc']
    | false => exact .inl rfl
  | _ => exact .inl rfl

theorem applying_seqOnly (h : Shaped E) {a : Act Row} {b : Batch Row} (hb : b ∈ applying E s a) :
    SeqOnly b.seqOps := by
  unfold applying at hb
  split at hb
  · split at hb
    · rename_i b' epoch after hpc
      cases hb
      have hs := h.seqOps s
      rw [hpc] at hs
      exact hs
    · cases hb
  · cases hb

theorem shaped_step {act : EngineAct Row} (h : Shaped E) (hstep : E.step act = some E') :
    Shaped E' := by
  cases act with
  | call s =>
    obtain ⟨-, v, hm, heng, hkv⟩ := call_cases hstep
    refine ⟨?_, fun s' => ?_⟩
    · rw [heng]
      change Formed v.kv
      rcases hkv with hkv | ⟨b, hb, hkv⟩
      · rw [hkv]
        exact h.formed
      · rw [hkv]
        exact formed_applyBatch (formedOp_ops (applying_seqOnly h hb)) h.formed
    · rw [heng]
      change SeqOnly (pcSeqOps (Function.update E.engine.sessions s v.self s').pc)
      by_cases hs : s' = s
      · subst hs
        rw [update_self]
        exact Move.seqOnly hm (h.seqOps s')
      · rw [update_of_ne hs]
        exact h.seqOps s'
  | decide | counter =>
    cases hstep
    exact ⟨h.formed, h.seqOps⟩

theorem shaped_initial : Shaped (RangeEngine.initial : RangeEngine Row) where
  formed k x t ht := by
    rw [show (RangeEngine.initial : RangeEngine Row).engine.kv = .empty from rfl,
      version_empty] at ht
    cases ht
  seqOps s := seqOnly_nil

/-- The block of session `s` and what it is shown stay as they are. -/
structure Reading (E₀ : RangeEngine Row) (s : SessionId) (c : TxnCtx) (G : Snapshot)
    (E : RangeEngine Row) : Prop where
  shaped : Shaped E
  txn : (E.engine.sessions s).txn = .inTransaction c
  shown : ∀ k y, shown E.engine.kv E.glob G c k y = shown E₀.engine.kv E₀.glob G c k y

variable {E₀ : RangeEngine Row} {c : TxnCtx} {G : Snapshot}

theorem txn_select (hrr : c.repeatableRead = true) {v v' : View Row}
    (htxn : v.self.txn = .inTransaction c) (h : Session.step E.env v .select = some v') :
    v'.self.txn = .inTransaction c := by
  simp only [Session.step, View.select] at h
  rw [htxn] at h
  split at h
  · rename_i heq
    cases heq
  · rename_i c' hpc heq
    cases heq
    cases h
    simp [hrr]
  · rename_i heq
    cases heq
  · cases h

theorem reading_step {act : EngineAct Row} (hrr : c.repeatableRead = true)
    (h : Reading E₀ s c G E) (hok : Steady s c G E act) (hstep : E.step act = some E') :
    Reading E₀ s c G E' := by
  have hshaped := shaped_step h.shaped hstep
  cases act with
  | call s' a =>
    obtain ⟨hglob, v, hm, heng, hkv⟩ := call_cases hstep
    refine ⟨hshaped, ?_, fun k y => ?_⟩
    · by_cases hs : s' = s
      · subst hs
        have ha : a = .select := by
          have hsel := hok.1 rfl
          cases a with
          | select => rfl
          | _ => cases hsel
        subst ha
        simp only [RangeEngine.step, SqlEngine.step, map_eq_some_iff] at hstep
        obtain ⟨e, ⟨v', hv', rfl⟩, rfl⟩ := hstep
        change (Function.update E.engine.sessions s' v'.self s').txn = _
        rw [update_self]
        exact txn_select hrr h.txn hv'
      · rw [heng]
        change (Function.update E.engine.sessions s' v.self s).txn = _
        rw [update_of_ne (Ne.symm hs)]
        exact h.txn
    · rw [← h.shown k y, hglob, heng]
      change MultiRange.shown v.kv E.glob G c k y = _
      rcases hkv with hkv | ⟨b, hb, hkv⟩
      · rw [hkv]
      · rw [hkv]
        exact (hok.2 b hb).shown h.shaped.formed (applying_seqOnly h.shaped hb) k y
  | decide =>
    cases hstep
    refine ⟨hshaped, h.txn, fun k y => ?_⟩
    rw [← h.shown k y]
    exact shown_recordDecision hok k y
  | counter =>
    cases hstep
    exact ⟨hshaped, h.txn, h.shown⟩

theorem rows_eq {t : TableId} (hrr : c.repeatableRead = true) (hG : c.globalSnapshot = some G)
    (htxn : (E.engine.sessions s).txn = .inTransaction c) :
    E.rows s t = some ((scanLive E.engine.kv E.glob G c.snapshot c.xid t).map
      fun e => (e.1, e.2.2)) := by
  have htxn' : (E.engine.view s).self.txn = .inTransaction c := htxn
  simp only [RangeEngine.rows, selectRows, readContext, htxn', hrr, if_true, hG,
    globalReadSnapshot, map_some]
  rfl

theorem Reading.rows (h : Reading E₀ s c G E) (hshaped : Shaped E₀)
    (htxn : (E₀.engine.sessions s).txn = .inTransaction c) (hrr : c.repeatableRead = true)
    (hG : c.globalSnapshot = some G) (t : TableId) : E.rows s t = E₀.rows s t := by
  have hscan : scanLive E.engine.kv E.glob G c.snapshot c.xid t =
      scanLive E₀.engine.kv E₀.glob G c.snapshot c.xid t :=
    scanLive_congr hshaped.formed h.shaped.formed fun r y => h.shown (t, r) y
  rw [rows_eq hrr hG h.txn, rows_eq hrr hG htxn, hscan]

end Steps

/-- Every read of a REPEATABLE READ block returns what its first read returned. -/
theorem repeatableRead_stable {acts later : List (EngineAct Row)} {E E' : RangeEngine Row}
    (h : exec RangeEngine.step RangeEngine.initial acts = some E) {s : SessionId}
    {c : TxnCtx} {G : Snapshot} (htxn : (E.engine.sessions s).txn = .inTransaction c)
    (hrr : c.repeatableRead = true) (hG : c.globalSnapshot = some G)
    (hlater : exec RangeEngine.step E later = some E')
    (hok : Runs.Along RangeEngine.step (Steady s c G) E later) (t : TableId) :
    E'.rows s t = E.rows s t := by
  have hany : Runs.Along RangeEngine.step (fun (_ : RangeEngine Row) _ => True) .initial acts :=
    along_trivial (fun _ _ => trivial) _ _
  have hshaped : Shaped E := exec_invariant (I := Shaped)
    (fun _ _ _ hI _ hs => shaped_step hI hs) shaped_initial hany h
  have hread : Reading E s c G E' := exec_invariant (I := Reading E s c G)
    (fun _ _ _ hI hs hstep => reading_step hrr hI hs hstep) ⟨hshaped, htxn, fun _ _ => rfl⟩
    hok hlater
  exact hread.rows hshaped htxn hrr hG t

section Runs

def callsOf (s : SessionId) (acts : List (Act ℕ)) : List (EngineAct ℕ) := acts.map (.call s)

def runs (s : SessionId) (w : Work ℕ) (loop : List (Act ℕ)) : List (EngineAct ℕ) :=
  callsOf s ([.start w, .takeSnapshot, .scan] ++ loop ++ [.propose, .apply true, .finish])

def stagedBefore : List (EngineAct ℕ) :=
  [.counter (globalXidBase + 1)] ++ callsOf 1 [.begin false, .join globalXidBase] ++
    runs 1 insertOne [] ++ callsOf 0 [.begin true]

def committedBefore : List (EngineAct ℕ) :=
  runs 1 insertOne [] ++ callsOf 1 [.release] ++ callsOf 0 [.begin true]

/-- The row is updated, and an INSERT is staged into a global transaction that commits. -/
def changedAfter : List (EngineAct ℕ) :=
  callsOf 0 [.select] ++ runs 2 addOne [.next, .acquire 0, .recheck] ++ callsOf 2 [.release] ++
    [.counter (globalXidBase + 1)] ++ callsOf 3 [.begin false, .join globalXidBase] ++
    runs 3 insertOne [] ++ [.decide globalXidBase true]

def blockOf (xmax gmax : Xid) : TxnCtx :=
  ⟨none, ⟨xmax, xmax, []⟩, true, some ⟨globalXidBase, gmax, []⟩, []⟩

end Runs

/-- The block sees nothing, then the decision arrives, and the block sees the staged row. -/
theorem repeatableRead_unstable : ∃ E E' : RangeEngine ℕ,
      exec RangeEngine.step RangeEngine.initial stagedBefore = some E ∧
      (E.engine.sessions 0).txn = .inTransaction (blockOf 2 (globalXidBase + 1)) ∧
      exec RangeEngine.step E [.decide globalXidBase true] = some E' ∧
      E.rows 0 1 = some [] ∧ E'.rows 0 1 = some [(1, 1)] := by
  obtain ⟨E, hE, htxn, hbefore, E', hE', hafter⟩ :
      ∃ E ∈ exec RangeEngine.step RangeEngine.initial stagedBefore,
        (E.engine.sessions 0).txn = .inTransaction (blockOf 2 (globalXidBase + 1)) ∧
        E.rows 0 1 = some [] ∧ ∃ E' ∈ exec RangeEngine.step E [.decide globalXidBase true],
          E'.rows 0 1 = some [(1, 1)] := by decide +kernel
  exact ⟨E, E', hE, htxn, hE', hbefore, hafter⟩

/-- An UPDATE that commits and a global transaction above the horizon do not show. -/
theorem repeatableRead_stable_after_update : ∃ E E' : RangeEngine ℕ,
      exec RangeEngine.step RangeEngine.initial committedBefore = some E ∧
      exec RangeEngine.step E changedAfter = some E' ∧
      E'.rows 0 1 = E.rows 0 1 ∧ E'.rows 4 1 = some [(1, 2), (2, 1)] := by
  obtain ⟨E, hE, htxn, hok, E', hE', hrows⟩ :
      ∃ E ∈ exec RangeEngine.step RangeEngine.initial committedBefore,
        (E.engine.sessions 0).txn = .inTransaction (blockOf 2 globalXidBase) ∧
        Runs.Along RangeEngine.step
          (Steady 0 (blockOf 2 globalXidBase) ⟨globalXidBase, globalXidBase, []⟩) E changedAfter ∧
        ∃ E' ∈ exec RangeEngine.step E changedAfter,
          E'.rows 4 1 = some [(1, 2), (2, 1)] := by decide +kernel
  exact ⟨E, E', hE, hE', repeatableRead_stable hE htxn rfl rfl hE' hok 1, hrows⟩

end Crabgresql.MultiRange
