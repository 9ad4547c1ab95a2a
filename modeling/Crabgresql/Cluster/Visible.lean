import Crabgresql.Cluster.GlobalXids
import Crabgresql.Cluster.Lifetimes

/-!
# An acknowledged cross-range commit is visible

A range together with range 0, whose log holds the global decisions and the
global xid counter, and with the replicas of range 0 on the range's nodes. A
statement resolves the markers of the range through its node's replica. The row
versions under a marker of `g` show once three things are there: the local xid
has left the running set, the replica holds the decision, and the counter that
the replica holds is above `g`. The last is lost when a batch with an older
value of the counter is applied after the decision.
-/

namespace Crabgresql.Cluster

open Mvcc Kv Procarray Lockmgr Exec Session Engine Reads Gtm List Range Allocator Runs Option
open ProcArray

variable {Row : Type}
variable {b : Batch Row} {epoch : ℕ} {after : After} {x : Xid} {m : NodeId} {s : SessionId}

/-- How an engine comes to range 0's store: it is range 0's own engine, with the GTM, or it reads
the replica of its node behind the range-0 barrier. -/
inductive Wiring
  | gtm
  | barrier
  deriving DecidableEq, Repr

structure Participant (Row : Type) where
  zero : Allocator Row
  range : Range Row
  /-- How much of range 0's log the replica of a node has applied. -/
  replica : NodeId → ℕ
  /-- The global transactions of which a caller was told that they are committed. -/
  acked : List Xid

inductive PartAct (Row : Type)
  | zero (a : AllocAct)
  | answer (i : ℕ)
  | electZero (n : NodeId)
  | on (a : RangeAct Row)
  | elect (n : NodeId)
  | crash (n : NodeId)
  | pull (n : NodeId)

/-- The steps of range 0 that concern no leader change, no restart and no applied batch. -/
def AllocAct.plain : AllocAct → Bool
  | .elect _ | .crash _ _ | .apply _ => false
  | _ => true

namespace RangeAct

def plain : RangeAct Row → Bool
  | .elect _ | .crash _ => false
  | _ => true

def node : RangeAct Row → NodeId
  | .call n _ _ _ | .catchUp n | .elect n | .crash n | .settle n | .relock n _ | .scan n _
  | .raced n _ | .unlock n | .rescan n _ | .advance n _ | .serve n | .giveUp n => n
  | .late _ => 0

/-- The step with `view` as what it reads of range 0. -/
def within (view : GlobalView) : RangeAct Row → RangeAct Row
  | .call n s a _ => .call n s a ⟨[], view.nextGlobal⟩
  | .relock n _ => .relock n ⟨[], view.nextGlobal⟩
  | .scan n _ => .scan n ⟨[], view.nextGlobal⟩
  | .rescan n _ => .rescan n ⟨[], view.nextGlobal⟩
  | a => a

end RangeAct

/-- The snapshots, with the own xid, that the session's next step reads with: a plain read, or a
statement that has its xid. -/
def nextSnapshots (env : Env) (v : View Row) : Option (Snapshot × Option Xid × Snapshot) :=
  match v.self.pc with
  | .ready => readContext env v
  | .starting _ _ _ => (v.takeSnapshot env).bind fun v' =>
    v'.self.pc.frame.map fun f => (f.snapshot, some f.xid, f.gsnap)
  | _ => none

namespace Participant

variable (P : Participant Row)

def initial : Participant Row := ⟨.initial, .initial, fun _ => 0, []⟩

def zeroStore (n : NodeId) : Store Row := P.zero.storeAt (P.replica n)

def view (n : NodeId) : GlobalView :=
  ⟨fun g => (P.zeroStore n).clogGet g, readNextGlobal (P.zeroStore n)⟩

def store (n : NodeId) : Store Row := P.range.storeAt (P.range.nodes n).applied

def env (n : NodeId) : Env := P.range.env n (P.view n)

/-- The effective decision that `commit_global_decision` reads back, if it is a commit. -/
def acks (c : Call) (A : Allocator Row) : List Xid :=
  match c.job with
  | .begin _ => []
  | .decision g _ => if c.waiting = true ∧ A.tip.clogGet g = .committed then [g] else []

/-- The batch of call `i` is applied. A caller that waits is answered once its node has applied the
batch. -/
def answer (i : ℕ) : Option (Participant Row) :=
  match P.zero.calls i with
  | some c => (P.zero.apply i).map fun A =>
    { P with
      zero := A
      replica := if c.waiting then Function.update P.replica c.node A.log.length else P.replica
      acked := P.acked ++ acks c A }
  | none => none

/-- Range 0's own engine is led by range 0's leader; any other range elects on its own. -/
def step (w : Wiring) (P : Participant Row) : PartAct Row → Option (Participant Row)
  | .zero a => if a.plain then (P.zero.step a).map fun A => { P with zero := A } else none
  | .answer i => P.answer i
  | .electZero n => if w = .gtm then none else some { P with zero := P.zero.elect n }
  | .on a =>
    if a.plain then
      (P.range.step (P.view a.node) (a.within (P.view a.node))).map fun R => { P with range := R }
    else none
  | .elect n =>
    some { P with
      range := P.range.elect n
      zero := if w = .gtm then P.zero.elect n else P.zero }
  | .crash n =>
    some { P with range := P.range.crash n, zero := P.zero.crash n (P.replica n) }
  | .pull n =>
    if P.replica n < P.zero.log.length then
      some { P with replica := Function.update P.replica n (P.replica n + 1) }
    else none

def snapshots (n : NodeId) (s : SessionId) : Option (Snapshot × Option Xid × Snapshot) :=
  nextSnapshots (P.env n) ((P.range.nodes n).view s (P.store n))

end Participant

/-- Batches of range 0 are applied in the order in which they read the counter, and no batch that
was refused to its proposer puts a marker of `g` later. -/
def InTurn (g : Xid) (P : Participant Row) : PartAct Row → Prop
  | .zero a => InOrder P.zero a
  | .answer i => InOrder P.zero (.apply i)
  | .on (.late i) => ∀ p ∈ P.range.inflight[i]?, ∀ x, .clog x (.prepared g) ∉ p.2.proposal.ops
  | _ => True

def Keeps (n : NodeId) : PartAct Row → Prop
  | .elect m => m = n
  | .crash m => m ≠ n
  | _ => True

/-- Nothing has been staged into `g` on the range, and nobody has asked for its decision. -/
structure Unstaged (g : Xid) (P : Participant Row) : Prop where
  log : ∀ e ∈ P.range.log, ∀ x, .clog x (.prepared g) ∉ e.proposal.ops
  pending : ∀ m s b epoch after, (P.range.sess m s).pc = .committing b epoch after →
    b.outcome ≠ some (.prepared g)
  calls : ∀ i c commit, P.zero.calls i = some c → c.job ≠ .decision g commit
  acked : g ∉ P.acked

section Sessions

variable {env : Env} {v v' : View Row} {a : Act Row}

/-- A marker is proposed by a session that takes part in its global transaction and goes on in its
own. -/
theorem Move.marks (hm : Move env v a v') {g : Xid} (hpc' : v'.self.pc = .committing b epoch after)
    (hb : b.outcome = some (.prepared g)) (ha : ∀ ok, a ≠ .apply ok) :
    epoch = env.epoch ∧ v'.self.globalXid = some g ∧ ∀ ack, after ≠ .close ack := by
  cases hm with
  | wait f r pick lm hpc =>
    rw [hpc] at hpc'
    cases hpc'
  | fail =>
    unfold failPc at hpc'
    split_ifs at hpc'
    cases hpc'
    cases hb
  | done =>
    simp only at hpc'
    split_ifs at hpc'
  | submit | commit | abort =>
    cases hpc'
    cases hb
  | stage =>
    cases hpc'
    obtain ⟨g', hg', hst⟩ := map_eq_some_iff.mp hb
    cases hst
    exact ⟨rfl, hg', nofun⟩
  | apply ok => exact absurd rfl (ha ok)
  | join =>
    cases hpc'
    cases hb
    exact ⟨rfl, rfl, nofun⟩
  | _ => cases hpc'

theorem Move.running_of_lt (hm : Move env v a v') : v.pa.nextXid ≤ v'.pa.nextXid ∧
      ∀ x ∈ v'.pa.running, x < v.pa.nextXid → x ∈ v.pa.running := by
  cases hm with
  | alloc =>
    refine ⟨Nat.le_succ _, fun x hx hlt => ?_⟩
    rcases mem_register.mp hx with rfl | hx
    · exact absurd hlt (lt_irrefl _)
    · exact hx
  | prepared | finish | drop =>
    exact ⟨le_rfl, fun y hy _ => (mem_running_finish.mp hy).1⟩
  | _ => exact ⟨le_rfl, fun x hx _ => hx⟩

theorem Move.deregisters (hm : Move env v a v') (hpc : v.self.pc = .preparing x) :
    x ∉ v'.pa.running := by
  have hgone : ∀ y, v.self.pc = .preparing y → x ∉ (v.pa.finish y).running := by
    intro y hy hx
    rw [hpc] at hy
    cases hy
    exact (mem_running_finish.mp hx).2 rfl
  cases hm with
  | prepared y hy => exact hgone y hy
  | walk a f todo hf => rcases hf with hf | hf | ⟨r, hf⟩ <;> rw [hpc] at hf <;> cases hf
  | fail a f e lm seq hf =>
    rw [hpc] at hf
    cases hf
  | _ => simp_all

end Sessions

/-- The xids of a node's sessions are below its counter, and what they write to the commit log is
the outcome of their own transaction. -/
structure Sane (R : Range Row) : Prop where
  coherent : ∀ m s, Coherent (R.sess m s)
  xid : ∀ m s x, activeXid (R.sess m s) = some x → x < (R.nodes m).pa.nextXid
  seqOps : ∀ m s, SeqOnly (pcSeqOps (R.sess m s).pc)

section Markers

variable {R R' : Range Row} {n : NodeId} {g : Xid} {glob : GlobalView}

theorem clog_mem_ops (hseq : SeqOnly b.seqOps) {st : XidStatus} (h : .clog x st ∈ b.ops) :
    x = b.xid ∧ b.outcome = some st := by
  rw [ops_eq] at h
  rcases mem_append.mp h with h | h
  · exact absurd (mem_rowPart hseq h).1 (by simp [RowOp])
  rcases mem_append.mp h with h | h
  · unfold Batch.clogOps at h
    split at h
    · rename_i st' hout
      cases mem_singleton.mp h
      exact ⟨rfl, hout⟩
    · cases h
  · unfold Batch.nextXidOps at h
    split at h
    · cases mem_singleton.mp h
    · cases h

theorem clogGet_put {kv : Store Row} {st : XidStatus} {ops : List (WriteOp Row)}
    (h : (applyBatch kv ops).clogGet x = st) : kv.clogGet x = st ∨ .clog x st ∈ ops := by
  induction ops generalizing kv with
  | nil => exact .inl h
  | cons op ops ih =>
    rw [applyBatch_cons] at h
    rcases ih h with hop | hlater
    · rw [clogGet_applyOp] at hop
      split at hop
      · split_ifs at hop with hx
        · unfold keepTerminal at hop
          split_ifs at hop
          · exact .inl hop
          · rw [hx, hop]
            exact .inr mem_cons_self
        · exact .inl hop
      · exact .inl hop
    · exact .inr (mem_cons_of_mem _ hlater)

theorem marker_logged {i : ℕ} (h : (R.storeAt i).clogGet x = .prepared g) :
    ∃ e ∈ R.log, .clog x (.prepared g) ∈ e.proposal.ops := by
  rcases clogGet_put h with h | h
  · cases h
  · obtain ⟨e, he, hop⟩ := mem_flatMap.mp h
    exact ⟨e, mem_of_mem_take he, hop⟩

variable {act : RangeAct Row}

theorem sane_step (h : Sane R) (hs : R.step glob act = some R') : Sane R' := by
  have hsess : ∀ m s, Coherent (R'.sess m s) ∧
      (∀ x, activeXid (R'.sess m s) = some x → x < (R'.nodes m).pa.nextXid) ∧
      SeqOnly (pcSeqOps (R'.sess m s).pc) := by
    intro m s
    have hsame : ∀ {u : Sess Row} {next : Xid}, u = R.sess m s → (R.nodes m).pa.nextXid ≤ next →
        Coherent u ∧ (∀ x, activeXid u = some x → x < next) ∧ SeqOnly (pcSeqOps u.pc) := by
      rintro u next rfl hle
      exact ⟨h.coherent m s, fun x hx => (h.xid m s x hx).trans_le hle, h.seqOps m s⟩
    have hturn := turned_step hs m
    unfold sess
    generalize R'.nodes m = node at hturn
    cases hturn with
    | same | advance => exact hsame rfl le_rfl
    | settle => exact hsame rfl (le_max_left _ _)
    | tends node hpa hsess => exact hsame (by rw [hsess]; rfl) (by rw [hpa])
    | boot => exact ⟨trivial, nofun, seqOnly_nil⟩
    | returned s' b epoch after ok lag applied hact hpc =>
      by_cases hss : s = s'
      · subst hss
        simp only [returnedNode, Function.update_self]
        refine ⟨coherent_returned (h.coherent m s) hpc ok, fun x hx => ?_,
          seqOnly_returned _ b after ok⟩
        refine h.xid m s x ((by simp [activeXid, hpc] : _ = some b.xid).trans ?_)
        exact (activeXid_returned (h.coherent m s) hpc ok).symm.trans hx
      · exact hsame (Function.update_of_ne hss _ _) le_rfl
    | moved s' a v lag hact ha hadm hmove =>
      have hnext := (Move.running_of_lt hmove).1
      by_cases hss : s = s'
      · subst hss
        have hself : Coherent ((R.nodes m).view s (R.storeAt (R.nodes m).applied)).self :=
          h.coherent m s
        simp only [movedNode, Node.set, Function.update_self]
        refine ⟨(Move.handles hmove hself).1, fun x hx => ?_, Move.seqOnly hmove (h.seqOps m s)⟩
        rcases Move.activeXid_cases hmove hself with ⟨hsame | hnone, hpa⟩ | ⟨-, hnew, hpa, -⟩
        · exact (h.xid m s x (hsame ▸ hx)).trans_le hnext
        · rw [hnone] at hx
          cases hx
        · rw [hnew] at hx
          cases hx
          exact hpa ▸ Nat.lt_succ_self _
      · exact hsame (Function.update_of_ne hss _ _) hnext
  exact ⟨fun m s => (hsess m s).1, fun m s => (hsess m s).2.1, fun m s => (hsess m s).2.2⟩

theorem sane_initial : Sane (initial : Range Row) where
  coherent _ _ := trivial
  xid _ _ _ hx := nomatch hx
  seqOps _ _ := seqOnly_nil

/-- Of the transactions with a marker of `g`, all written under leader `n`, only those whose
statement has not yet returned are in the running set of `n`. -/
structure Enlisted (g : Xid) (n : NodeId) (R : Range Row) : Prop where
  sane : Sane R
  leader : R.leader = some n
  pending : ∀ m s b epoch after, (R.sess m s).pc = .committing b epoch after →
    b.outcome = some (.prepared g) →
      (m ≠ n → epoch = 0) ∧ (R.sess m s).globalXid = some g ∧ ∀ ack, after ≠ .close ack
  xid : ∀ e ∈ R.log, ∀ x, .clog x (.prepared g) ∈ e.proposal.ops → x < (R.nodes n).pa.nextXid
  running : ∀ e ∈ R.log, ∀ x, .clog x (.prepared g) ∈ e.proposal.ops →
    x ∈ (R.nodes n).pa.running →
      ∃ s, (R.sess n s).pc = .preparing x ∧ (R.sess n s).globalXid = some g

theorem returned_marks {u : Sess Row} (hg : u.globalXid = some g)
    (hafter : ∀ ack, after ≠ .close ack) : (u.returned b after true).pc = .preparing b.xid ∧
      (u.returned b after true).globalXid = some g := by
  cases after with
  | keep => simp [Sess.returned, hg]
  | enlist => exact ⟨rfl, hg⟩
  | close ack => exact absurd rfl (hafter ack)

theorem Range.leader_step (h : R.step glob act = some R')
    (hplain : act.plain = true) : R'.leader = R.leader := by
  cases leads_step h with
  | kept hlead | settle _ _ hlead => exact hlead
  | elect | crash => cases hplain

theorem plain_within (view : GlobalView) (a : RangeAct Row) : (a.within view).plain = a.plain := by
  cases a <;> rfl

/-- A marker of `g` that a step adds to the log is that of a statement that returns now. -/
theorem Enlisted.logged (h : Enlisted g n R) (hs : R.step glob act = some R')
    (hlate : ∀ i, act = .late i → ∀ p ∈ R.inflight[i]?, ∀ x,
      .clog x (.prepared g) ∉ p.2.proposal.ops) {e : LogEntry Row} (he : e ∈ R'.log)
    (hx : .clog x (.prepared g) ∈ e.proposal.ops) :
    e ∈ R.log ∨ ∃ s, activeXid (R.sess n s) = some x ∧
      (R'.sess n s).pc = .preparing x ∧ (R'.sess n s).globalXid = some g := by
  rcases log_step hs with hlog | ⟨e', ha, hlog⟩
  · exact .inl (hlog ▸ he)
  rw [hlog] at he
  rcases mem_append.mp he with he | he
  · exact .inl he
  obtain rfl := mem_singleton.mp he
  refine .inr ?_
  cases ha with
  | session m s b epoch after lag hpc hcan =>
    have hseq := h.sane.seqOps m s
    rw [hpc] at hseq
    obtain ⟨rfl, hout⟩ := clog_mem_ops hseq hx
    obtain ⟨hnode, hg, hafter⟩ := h.pending m s b epoch after hpc hout
    obtain rfl : m = n := by
      by_contra hne
      exact (canAppend_iff.mp hcan).1 (hnode hne)
    refine ⟨s, by simp [activeXid, hpc], ?_⟩
    cases step_cases hs with
    | called _ _ _ _ hcall =>
      cases hcall with
      | appended b' epoch' after' hpc' =>
        cases hpc.symm.trans hpc'
        have hsess := (R.append (R.entryOf m s b after)).sess_returned m s b after true
          (R.log.length + 1) m s
        rw [if_pos ⟨rfl, rfl⟩] at hsess
        exact hsess.symm ▸ returned_marks hg hafter
      | moved a v ha => exact absurd rfl (ha true)
    | tended _ _ _ _ _ _ ht => cases ht
  | flight i epoch e hget => exact absurd hx (hlate i rfl _ hget x)
  | watermark => simp [Proposal.ops] at hx

/-- Where the xids that run on a node after a step were before. -/
theorem running_before (hs : R.step glob act = some R') (hboot : act ≠ .crash n) :
    (R.nodes n).pa.nextXid ≤ (R'.nodes n).pa.nextXid ∧
      ∀ x ∈ (R'.nodes n).pa.running, x < (R.nodes n).pa.nextXid → x ∈ (R.nodes n).pa.running ∧
        ∀ s, (R.sess n s).pc = .preparing x → R'.sess n s = R.sess n s := by
  have hturn := turned_step hs n
  unfold sess
  generalize R'.nodes n = node at hturn
  cases hturn with
  | same | advance => exact ⟨le_rfl, fun x hx _ => ⟨hx, fun _ _ => rfl⟩⟩
  | settle => exact ⟨le_max_left _ _, fun x hx _ => ⟨hx, fun _ _ => rfl⟩⟩
  | tends node hpa hsess =>
    rw [hpa, hsess]
    exact ⟨le_rfl, fun x hx _ => ⟨hx, fun _ _ => rfl⟩⟩
  | boot hact => exact absurd hact hboot
  | returned s' b epoch after ok lag applied hact hpc =>
    refine ⟨le_rfl, fun x hx _ => ⟨hx, fun s hs => Function.update_of_ne ?_ _ _⟩⟩
    rintro rfl
    cases hpc.symm.trans hs
  | moved s' a v lag hact ha hadm hmove =>
    obtain ⟨hle, hrun⟩ := Move.running_of_lt hmove
    refine ⟨hle, fun x hx hlt => ⟨hrun x hx hlt, fun s hs => Function.update_of_ne ?_ _ _⟩⟩
    rintro rfl
    exact Move.deregisters hmove hs hx

theorem enlisted_step (h : Enlisted g n R) (hs : R.step glob act = some R')
    (hboot : act ≠ .crash n) (hlead : R'.leader = some n)
    (hlate : ∀ i, act = .late i → ∀ p ∈ R.inflight[i]?, ∀ x,
      .clog x (.prepared g) ∉ p.2.proposal.ops) : Enlisted g n R' := by
  obtain ⟨hnext, hrun⟩ := running_before hs hboot
  refine ⟨sane_step h.sane hs, hlead, fun m s b epoch after hpc hb => ?_, fun e he x hx => ?_,
    fun e he x hx hr => ?_⟩
  · have hbecame := became_step hs m s
    generalize R'.sess m s = u at hbecame hpc
    cases hbecame with
    | same => exact h.pending m s b epoch after hpc hb
    | new => cases hpc
    | returned => exact absurd hpc (returned_not_committing _ _ _ _)
    | moved a v lag hact ha hadm hmove =>
      obtain ⟨hepoch, hg, hafter⟩ := Move.marks hmove hpc hb ha
      refine ⟨fun hne => ?_, hg, hafter⟩
      rw [hepoch]
      exact if_neg fun hl => hne (some.inj (hl.symm.trans h.leader))
  · rcases h.logged hs hlate he hx with hold | ⟨s, hself, -⟩
    · exact (h.xid e hold x hx).trans_le hnext
    · exact (h.sane.xid n s x hself).trans_le hnext
  · rcases h.logged hs hlate he hx with hold | ⟨s, -, hnow⟩
    · obtain ⟨hbefore, hkept⟩ := hrun x hr (h.xid e hold x hx)
      obtain ⟨s, hpc, hg⟩ := h.running e hold x hx hbefore
      exact ⟨s, (hkept s hpc).symm ▸ hpc, (hkept s hpc).symm ▸ hg⟩
    · exact ⟨s, hnow⟩

end Markers

section Zero

variable {A A' : Allocator Row} {g : Xid} {i j : ℕ}

theorem Allocator.storeAt_prefix {more : List (List (WriteOp Row))} (h : A'.log = A.log ++ more)
    (hi : i ≤ A.log.length) : A'.storeAt i = A.storeAt i := by
  rw [storeAt, storeAt, h, take_append_of_le_length hi]

theorem Allocator.storeAt_length (A : Allocator Row) : A.storeAt A.log.length = A.tip := by
  rw [storeAt, take_length, tip]

theorem Allocator.committed_mono (hij : i ≤ j) (h : (A.storeAt i).clogGet g = .committed) :
    (A.storeAt j).clogGet g = .committed := by
  have hfold : ∀ (l : List (List (WriteOp Row))) (kv : Store Row), kv.clogGet g = .committed →
      (l.foldl applyBatch kv).clogGet g = .committed := by
    intro l
    induction l with
    | nil => exact fun _ hkv => hkv
    | cons ops l ih =>
      intro kv hkv
      refine ih _ ?_
      rw [clogGet_applyBatch_terminal (by rw [hkv]; rfl), hkv]
  obtain ⟨k, rfl⟩ := Nat.exists_eq_add_of_le hij
  rw [storeAt, take_add, foldl_append]
  exact hfold _ _ h

/-- What the steps of range 0 leave alone that apply nothing and elect or restart nobody. -/
structure Resting (A A' : Allocator Row) : Prop where
  log : A'.log = A.log
  returned : A'.returned = A.returned
  leader : A'.leader = A.leader
  calls : ∀ i c v st e, A'.calls i = some c → c.progress = .proposed v st (some e) →
    A.leader = some c.node ∨
      ∃ d, A.calls i = some d ∧ d.job = c.job ∧ d.node = c.node ∧ d.progress = c.progress

theorem resting_setCall {d : Call} (hcalls : A'.calls = (A.setCall i (some d)).calls)
    (hlog : A'.log = A.log) (hret : A'.returned = A.returned) (hlead : A'.leader = A.leader)
    (hd : ∀ v st e, d.progress = .proposed v st (some e) → A.leader = some d.node ∨
      ∃ c, A.calls i = some c ∧ c.job = d.job ∧ c.node = d.node ∧ c.progress = d.progress) :
    Resting A A' where
  log := hlog
  returned := hret
  leader := hlead
  calls j c v st e hc hp := by
    rw [hcalls] at hc
    rcases calls_setCall hc with ⟨rfl, hnew⟩ | ⟨-, hold⟩
    · cases hnew
      exact hd v st e hp
    · exact .inr ⟨c, hold, rfl, rfl, rfl⟩

theorem resting_step {a : AllocAct} (hplain : a.plain = true) (hs : A.step a = some A') :
    Resting A A' := by
  cases a with
  | begin =>
    simp only [Allocator.step, begin] at hs
    split_ifs at hs
    cases hs
    exact resting_setCall rfl rfl rfl rfl nofun
  | decide =>
    simp only [Allocator.step, Allocator.decide] at hs
    obtain ⟨-, hs⟩ := ite_none_right_eq_some.mp hs
    cases hs
    exact resting_setCall rfl rfl rfl rfl nofun
  | read i =>
    simp only [Allocator.step, Allocator.read] at hs
    split at hs
    · split_ifs at hs
      cases hs
      exact resting_setCall rfl rfl rfl rfl nofun
    · cases hs
  | propose i =>
    simp only [Allocator.step, propose] at hs
    split at hs
    · split at hs
      · cases hs
        refine resting_setCall rfl rfl rfl rfl fun v st e hp => .inl ?_
        simp only [Progress.proposed.injEq, Allocator.epochOf] at hp
        obtain ⟨-, -, hepoch⟩ := hp
        split_ifs at hepoch with hlead
        exact hlead
      · cases hs
    · cases hs
  | refuse i =>
    simp only [Allocator.step, refuse] at hs
    split at hs
    · rename_i c hc
      split at hs
      · cases hs
        exact resting_setCall rfl rfl rfl rfl fun v st e hp => .inr ⟨c, hc, rfl, rfl, rfl⟩
      · cases hs
    · cases hs
  | reseed =>
    simp only [Allocator.step, Allocator.reseed] at hs
    split at hs
    · split_ifs at hs
      cases hs
      exact ⟨rfl, rfl, rfl, fun i c v st e hc hp => .inr ⟨c, hc, rfl, rfl, rfl⟩⟩
    · cases hs
  | _ => cases hplain

end Zero

section Runs

variable {w : Wiring} {P P' : Participant Row} {g : Xid} {n : NodeId} {L : ℕ} {act : PartAct Row}

/-- What every run keeps. -/
structure Linked (w : Wiring) (P : Participant Row) : Prop where
  alloc : AllocInv P.zero
  sane : Sane P.range
  replica : ∀ m, P.replica m ≤ P.zero.log.length
  leader : w = .gtm → P.zero.leader = P.range.leader

variable {i : ℕ}

theorem answer_cases (hs : P.answer i = some P') : ∃ c value stamp epoch, P.zero.calls i = some c ∧
      c.progress = .proposed value stamp (some epoch) ∧
      P.zero.apply i = some P'.zero ∧ P'.zero = P.zero.applied i c value stamp ∧
      P'.range = P.range ∧ P'.acked = P.acked ++ Participant.acks c P'.zero ∧
      P'.replica = if c.waiting then
        Function.update P.replica c.node P'.zero.log.length else P.replica := by
  unfold Participant.answer at hs
  split at hs
  · rename_i c hc
    obtain ⟨A, hA, rfl⟩ := map_eq_some_iff.mp hs
    obtain ⟨d, value, stamp, epoch, hd, hp, -, rfl⟩ := apply_cases hA
    cases hc.symm.trans hd
    exact ⟨c, value, stamp, epoch, hc, hp, hA, rfl, rfl, rfl, rfl⟩
  · cases hs

theorem log_applied {A : Allocator Row} (i : ℕ) (c : Call) (value : Xid) (stamp : ℕ) :
    (A.applied i c value stamp).log = A.log ++ [c.job.ops value] := rfl

theorem linked_initial (w : Wiring) : Linked w (Participant.initial : Participant Row) where
  alloc := allocInv_initial
  sane := sane_initial
  replica _ := le_rfl
  leader _ := rfl

theorem linked_step (h : Linked w P) (hok : InTurn g P act)
    (hs : Participant.step w P act = some P') : Linked w P' := by
  cases act with
  | zero =>
    simp only [Participant.step] at hs
    obtain ⟨hplain, hs⟩ := ite_none_right_eq_some.mp hs
    obtain ⟨A, hA, rfl⟩ := map_eq_some_iff.mp hs
    have hrest := resting_step hplain hA
    exact ⟨(allocInv_step h.alloc hok hA).1, h.sane,
      fun m => (h.replica m).trans_eq (by rw [hrest.log]),
      fun hw => hrest.leader.trans (h.leader hw)⟩
  | answer =>
    obtain ⟨c, value, stamp, epoch, -, -, hA, hzero, hrange, -, hrep⟩ := answer_cases hs
    refine ⟨(allocInv_apply h.alloc hok hA).1, hrange ▸ h.sane, fun m => ?_, fun hw => ?_⟩
    · have hle : P.zero.log.length ≤ P'.zero.log.length := by
        rw [hzero, log_applied, length_append]
        exact Nat.le_add_right _ _
      rw [hrep]
      split_ifs
      · rw [Function.update_apply]
        split_ifs
        · exact le_rfl
        · exact (h.replica m).trans hle
      · exact (h.replica m).trans hle
    · rw [hrange, hzero]
      exact h.leader hw
  | electZero m =>
    simp only [Participant.step] at hs
    obtain ⟨hw, hs⟩ := ite_none_left_eq_some.mp hs
    cases hs
    exact ⟨allocInv_elect h.alloc m, h.sane, h.replica, fun hg => absurd hg hw⟩
  | on a =>
    simp only [Participant.step] at hs
    obtain ⟨hplain, hs⟩ := ite_none_right_eq_some.mp hs
    obtain ⟨R, hR, rfl⟩ := map_eq_some_iff.mp hs
    refine ⟨h.alloc, sane_step h.sane hR, h.replica, fun hw => (h.leader hw).trans ?_⟩
    exact (leader_step hR ((plain_within _ a).trans hplain)).symm
  | elect m =>
    cases hs
    have hstep : step (P.view m) P.range (.elect m) = some (P.range.elect m) := rfl
    refine ⟨?_, sane_step h.sane hstep, ?_, fun hw => ?_⟩
    · dsimp only
      split_ifs
      · exact allocInv_elect h.alloc m
      · exact h.alloc
    · intro k
      dsimp only
      split_ifs <;> exact h.replica k
    · simp only [hw, if_true]
      rfl
  | crash m =>
    cases hs
    have hstep : step (P.view m) P.range (.crash m) = some (P.range.crash m) := rfl
    refine ⟨allocInv_crash h.alloc m _, sane_step h.sane hstep, h.replica, fun hw => ?_⟩
    have hlead := h.leader hw
    simp only [Allocator.crash, Range.crash, hlead]
    split_ifs <;> rfl
  | pull =>
    simp only [Participant.step] at hs
    obtain ⟨hlt, hs⟩ := ite_none_right_eq_some.mp hs
    cases hs
    refine ⟨h.alloc, h.sane, fun k => ?_, h.leader⟩
    simp only [Function.update_apply]
    split_ifs
    · exact hlt
    · exact h.replica k

/-- What holds from the staging of `g` on, under leader `n`: range 0's log had length `L` then, and
the counter has stayed above `g` since. -/
structure Deciding (w : Wiring) (g : Xid) (n : NodeId) (L : ℕ) (P : Participant Row) : Prop where
  linked : Linked w P
  enlisted : Enlisted g n P.range
  length : L ≤ P.zero.log.length
  returned : g ∈ P.zero.returned
  counter : ∀ i, L ≤ i → i ≤ P.zero.log.length → g < readNextGlobal (P.zero.storeAt i)
  proposed : w = .gtm → ∀ i c commit v st e, P.zero.calls i = some c →
    c.job = .decision g commit → c.progress = .proposed v st (some e) → c.node = n
  acked : g ∈ P.acked → ∃ i, L ≤ i ∧ i ≤ P.zero.log.length ∧
    (P.zero.storeAt i).clogGet g = .committed ∧ (w = .gtm → i ≤ P.replica n)

theorem Deciding.unstaged (h : Linked w P) (hlead : P.range.leader = some n)
    (hg : g ∈ P.zero.returned) (hun : Unstaged g P) : Deciding w g n P.zero.log.length P where
  linked := h
  enlisted := ⟨h.sane, hlead,
    fun m s b epoch after hpc hb => absurd hb (hun.pending m s b epoch after hpc),
    fun e he x hx => absurd hx (hun.log e he x), fun e he x hx => absurd hx (hun.log e he x)⟩
  length := le_rfl
  returned := hg
  counter i hL hi := by
    rw [le_antisymm hi hL, Allocator.storeAt_length]
    exact h.alloc.returned g hg
  proposed _ i c commit _ _ _ hc hjob := absurd hjob (hun.calls i c commit hc)
  acked hack := absurd hack hun.acked

theorem Deciding.same (h : Deciding w g n L P) (hlinked : Linked w P')
    (henl : Enlisted g n P'.range) (hlog : P'.zero.log = P.zero.log)
    (hret : P'.zero.returned = P.zero.returned) (hack : P'.acked = P.acked)
    (hrep : P.replica n ≤ P'.replica n)
    (hcalls : w = .gtm → ∀ i c v st e, P'.zero.calls i = some c →
      c.progress = .proposed v st (some e) → c.node = n ∨
        ∃ d, P.zero.calls i = some d ∧ d.job = c.job ∧ d.node = c.node ∧
          d.progress = c.progress) :
    Deciding w g n L P' := by
  have hstore : ∀ i, P'.zero.storeAt i = P.zero.storeAt i := fun i => by
    rw [Allocator.storeAt, Allocator.storeAt, hlog]
  refine ⟨hlinked, henl, hlog ▸ h.length, hret ▸ h.returned, fun i hL hi => ?_,
    fun hw i c commit v st e hc hj hp => ?_, fun ha => ?_⟩
  · rw [hstore]
    exact h.counter i hL (hlog ▸ hi)
  · rcases hcalls hw i c v st e hc hp with hn | ⟨d, hd, hjob, hnode, hprog⟩
    · exact hn
    · rw [← hnode]
      exact h.proposed hw i d commit v st e hd (hjob.trans hj) (hprog.trans hp)
  · obtain ⟨i, hL, hi, hcom, hgtm⟩ := h.acked (hack ▸ ha)
    exact ⟨i, hL, hlog ▸ hi, by rw [hstore]; exact hcom, fun hw => (hgtm hw).trans hrep⟩

/-- A decision of `g` that is acknowledged is in the log, and on range 0's own engine it has been
applied by the leader. -/
theorem Deciding.answer (h : Deciding w g n L P) (hlinked : Linked w P')
    (hs : P.answer i = some P') : Deciding w g n L P' := by
  obtain ⟨c, value, stamp, epoch, hc, hp, hA, hzero, hrange, hack, hrep⟩ := answer_cases hs
  have hlog : P'.zero.log = P.zero.log ++ [c.job.ops value] := by rw [hzero, log_applied]
  have hlen : P'.zero.log.length = P.zero.log.length + 1 := by
    rw [hlog, length_append, length_singleton]
  have hstore : ∀ j ≤ P.zero.log.length, P'.zero.storeAt j = P.zero.storeAt j := fun j hj =>
    storeAt_prefix hlog hj
  have hret : g ∈ P'.zero.returned := by
    rw [hzero]
    exact mem_append_left _ h.returned
  have hL := h.length
  refine ⟨hlinked, hrange ▸ h.enlisted, by omega, hret, fun j hLj hj => ?_,
    fun hw k d commit v st e hd hj hpd => ?_, fun ha => ?_⟩
  · rcases Nat.lt_or_ge P.zero.log.length j with hlt | hge
    · have hj' : j = P'.zero.log.length := by omega
      rw [hj', Allocator.storeAt_length]
      exact hlinked.alloc.returned g hret
    · rw [hstore j hge]
      exact h.counter j hLj hge
  · rw [hzero] at hd
    exact h.proposed hw k d commit v st e (calls_applied hd).2 hj hpd
  · rw [hack] at ha
    rcases mem_append.mp ha with hold | hnew
    · obtain ⟨j, hLj, hj, hcom, hgtm⟩ := h.acked hold
      refine ⟨j, hLj, hj.trans (by omega), by rw [hstore j hj]; exact hcom, fun hw => ?_⟩
      have hold := hgtm hw
      rw [hrep]
      split_ifs
      · rw [Function.update_apply]
        split_ifs
        · omega
        · exact hold
      · exact hold
    · unfold Participant.acks at hnew
      split at hnew
      · cases hnew
      · rename_i g' commit hjob
        split_ifs at hnew with hcond
        · cases mem_singleton.mp hnew
          refine ⟨P'.zero.log.length, by omega, le_rfl, ?_, fun hw => ?_⟩
          · rw [Allocator.storeAt_length]
            exact hcond.2
          · have hnode := h.proposed hw i c commit value stamp epoch hc hjob hp
            rw [hrep, if_pos hcond.1, hnode, Function.update_self]
        · cases hnew

theorem deciding_step (h : Deciding w g n L P) (hok : InTurn g P act) (hkeep : Keeps n act)
    (hs : Participant.step w P act = some P') : Deciding w g n L P' := by
  have hlinked := linked_step h.linked hok hs
  have hzlead : w = .gtm → P.zero.leader = some n := fun hw =>
    (h.linked.leader hw).trans h.enlisted.leader
  cases act with
  | zero =>
    simp only [Participant.step] at hs
    obtain ⟨hplain, hs⟩ := ite_none_right_eq_some.mp hs
    obtain ⟨A, hA, rfl⟩ := map_eq_some_iff.mp hs
    have hrest := resting_step hplain hA
    refine h.same hlinked h.enlisted hrest.log hrest.returned rfl le_rfl
      fun hw i c v st e hc hp => ?_
    rcases hrest.calls i c v st e hc hp with hl | hd
    · exact .inl (some.inj (hl.symm.trans (hzlead hw)))
    · exact .inr hd
  | answer => exact h.answer hlinked hs
  | electZero =>
    simp only [Participant.step] at hs
    obtain ⟨hw, hs⟩ := ite_none_left_eq_some.mp hs
    cases hs
    exact h.same hlinked h.enlisted rfl rfl rfl le_rfl fun hg => absurd hg hw
  | on a =>
    simp only [Participant.step] at hs
    obtain ⟨hplain, hs⟩ := ite_none_right_eq_some.mp hs
    obtain ⟨R, hR, rfl⟩ := map_eq_some_iff.mp hs
    have hplain' := (plain_within (P.view a.node) a).trans hplain
    have henl : Enlisted g n R := by
      refine enlisted_step h.enlisted hR (fun hc => ?_)
        ((leader_step hR hplain').trans h.enlisted.leader) fun i hi => ?_
      · rw [hc] at hplain'
        cases hplain'
      · cases a with
        | late =>
          cases hi
          exact hok
        | _ => cases hi
    exact h.same hlinked henl rfl rfl rfl le_rfl fun _ i c v st e hc _ =>
      .inr ⟨c, hc, rfl, rfl, rfl⟩
  | elect m =>
    obtain rfl : m = n := hkeep
    cases hs
    have hstep : step (P.view m) P.range (.elect m) = some (P.range.elect m) := rfl
    have henl : Enlisted g m (P.range.elect m) := enlisted_step h.enlisted hstep nofun rfl nofun
    refine h.same hlinked henl ?_ ?_ rfl le_rfl fun _ i c v st e hc _ => ?_
    · dsimp only
      split_ifs <;> rfl
    · dsimp only
      split_ifs <;> rfl
    · refine .inr ⟨c, ?_, rfl, rfl, rfl⟩
      dsimp only at hc
      split_ifs at hc
      all_goals exact hc
  | crash m =>
    have hne : n ≠ m := fun hn => hkeep hn.symm
    cases hs
    have hlead : (P.range.crash m).leader = some n := by
      unfold Range.crash
      rw [if_neg fun hl => hne (some.inj (h.enlisted.leader.symm.trans hl))]
      exact h.enlisted.leader
    have hstep : step (P.view m) P.range (.crash m) = some (P.range.crash m) := rfl
    have henl : Enlisted g n (P.range.crash m) :=
      enlisted_step h.enlisted hstep (by simpa using hne.symm) hlead nofun
    refine h.same hlinked henl rfl rfl rfl le_rfl fun _ i c v st e hc hp => .inr ?_
    obtain ⟨d, hd, hsurv⟩ := bind_eq_some_iff.mp hc
    obtain ⟨hf, hprog, -⟩ := survives_follows hsurv
    exact ⟨d, hd, hf.job.symm, hf.node.symm, hprog.symm⟩
  | pull =>
    simp only [Participant.step] at hs
    obtain ⟨hlt, hs⟩ := ite_none_right_eq_some.mp hs
    cases hs
    refine h.same hlinked h.enlisted rfl rfl rfl ?_ fun _ i c v st e hc _ =>
      .inr ⟨c, hc, rfl, rfl, rfl⟩
    simp only [Function.update_apply]
    split_ifs with hn
    · subst hn
      exact Nat.le_succ _
    · exact le_rfl

/-- Range 0's log has grown, and no replica of it has gone back. -/
def Ahead (P P' : Participant Row) : Prop :=
  (∃ more, P'.zero.log = P.zero.log ++ more) ∧ ∀ m, P.replica m ≤ P'.replica m

theorem Ahead.trans {P'' : Participant Row} (h : Ahead P P') (h' : Ahead P' P'') : Ahead P P'' := by
  obtain ⟨⟨more, hlog⟩, hrep⟩ := h
  obtain ⟨⟨more', hlog'⟩, hrep'⟩ := h'
  exact ⟨⟨more ++ more', by rw [hlog', hlog, append_assoc]⟩, fun m => (hrep m).trans (hrep' m)⟩

theorem ahead_step (h : Linked w P) (hs : Participant.step w P act = some P') : Ahead P P' := by
  cases act with
  | zero =>
    simp only [Participant.step] at hs
    obtain ⟨hplain, hs⟩ := ite_none_right_eq_some.mp hs
    obtain ⟨A, hA, rfl⟩ := map_eq_some_iff.mp hs
    exact ⟨⟨[], by rw [append_nil]; exact (resting_step hplain hA).log⟩, fun _ => le_rfl⟩
  | answer i =>
    obtain ⟨c, value, stamp, epoch, -, -, -, hzero, -, -, hrep⟩ := answer_cases hs
    have hlog : P'.zero.log = P.zero.log ++ [c.job.ops value] := by rw [hzero, log_applied]
    refine ⟨⟨_, hlog⟩, fun m => ?_⟩
    have hm := h.replica m
    rw [hrep]
    split_ifs
    · rw [Function.update_apply]
      split_ifs
      · rw [hlog, length_append]
        omega
      · exact le_rfl
    · exact le_rfl
  | electZero =>
    simp only [Participant.step] at hs
    obtain ⟨-, hs⟩ := ite_none_left_eq_some.mp hs
    cases hs
    exact ⟨⟨[], (append_nil _).symm⟩, fun _ => le_rfl⟩
  | on =>
    simp only [Participant.step] at hs
    obtain ⟨-, hs⟩ := ite_none_right_eq_some.mp hs
    obtain ⟨R, -, rfl⟩ := map_eq_some_iff.mp hs
    exact ⟨⟨[], (append_nil _).symm⟩, fun _ => le_rfl⟩
  | elect =>
    cases hs
    refine ⟨⟨[], ?_⟩, fun _ => le_rfl⟩
    rw [append_nil]
    dsimp only
    split_ifs <;> rfl
  | crash =>
    cases hs
    exact ⟨⟨[], (append_nil _).symm⟩, fun _ => le_rfl⟩
  | pull =>
    simp only [Participant.step] at hs
    obtain ⟨-, hs⟩ := ite_none_right_eq_some.mp hs
    cases hs
    refine ⟨⟨[], (append_nil _).symm⟩, fun k => ?_⟩
    simp only [Function.update_apply]
    split_ifs with hk
    · subst hk
      exact Nat.le_succ _
    · exact le_rfl

theorem ahead_exec {acts : List (PartAct Row)} (h : Linked w P)
    (hok : Along (Participant.step w) (InTurn g) P acts)
    (hs : exec (Participant.step w) P acts = some P') : Linked w P' ∧ Ahead P P' := by
  refine exec_invariant (I := fun Q => Linked w Q ∧ Ahead P Q) (fun Q a Q' hI hc hstep => ?_)
    ⟨h, ⟨[], (append_nil _).symm⟩, fun _ => le_rfl⟩ hok hs
  exact ⟨linked_step hI.1 hc hstep, hI.2.trans (ahead_step hI.1 hstep)⟩

theorem Ahead.committed (h : Ahead P P') (hi : i ≤ P.zero.log.length)
    (hin : i ≤ P'.replica n) (hc : (P.zero.storeAt i).clogGet g = .committed) :
    (P'.zeroStore n).clogGet g = .committed := by
  obtain ⟨⟨more, hlog⟩, -⟩ := h
  refine committed_mono hin ?_
  rw [ storeAt_prefix hlog hi]
  exact hc

theorem deciding_exec {acts : List (PartAct Row)} (h : Deciding w g n L P)
    (hkeep : ∀ act ∈ acts, Keeps n act) (hok : Along (Participant.step w) (InTurn g) P acts)
    (hs : exec (Participant.step w) P acts = some P') : Deciding w g n L P' := by
  have hboth : Along (Participant.step w) (fun Q act => InTurn g Q act ∧ Keeps n act) P
      acts :=
    along_imp (fun act hact Q hord => ⟨hord, hkeep act hact⟩) hok
  exact exec_invariant (fun _ _ _ hI hc hstep => deciding_step hI hc.1 hc.2 hstep) h hboth hs

theorem Deciding.finished (h : Deciding w g n L P) {li : Xid}
    (hret : ∀ s x, (P.range.sess n s).pc = .preparing x → (P.range.sess n s).globalXid ≠ some g)
    (hmark : (P.store n).clogGet li = .prepared g) : (P.range.nodes n).pa.Finished li := by
  obtain ⟨e, he, hop⟩ := marker_logged hmark
  refine ⟨h.enlisted.xid e he li hop, fun hrun => ?_⟩
  obtain ⟨s, hpc, hg⟩ := h.enlisted.running e he li hop hrun
  exact hret s li hpc hg

theorem Deciding.below_horizon (h : Deciding w g n L P) (hL : L ≤ P.replica n) :
    (durableGlobalSnapshot (P.view n)).isRunning g = false := by
  refine isRunning_eq_false.mpr ⟨?_, by simp [durableGlobalSnapshot]⟩
  exact h.counter (P.replica n) hL (h.linked.replica n)

end Runs

theorem nextSnapshots_fresh {env : Env} {v : View Row} {S G : Snapshot} {own : Option Xid}
    (h : nextSnapshots env v = some (S, own, G)) (hrc : v.self.txn.holdsSnapshot = false) :
    S = v.pa.snapshot ∧ G = globalReadSnapshot env none := by
  obtain ⟨kv, pa, lm, seq, txn, gx, pc, err⟩ := v
  cases pc with
  | ready =>
    cases txn with
    | idle =>
      cases h
      exact ⟨rfl, rfl⟩
    | inTransaction c =>
      have hrr : c.repeatableRead = false := hrc
      simp only [nextSnapshots, readContext, hrr, Bool.false_eq_true, if_false] at h
      cases h
      exact ⟨rfl, rfl⟩
    | failed => cases h
  | starting work x auto =>
    cases auto with
    | true =>
      cases h
      exact ⟨rfl, rfl⟩
    | false =>
      cases txn with
      | inTransaction c =>
        have hrr : c.repeatableRead = false := hrc
        simp only [nextSnapshots, View.takeSnapshot, hrr, Bool.false_eq_true, if_false] at h
        cases h
        exact ⟨rfl, rfl⟩
      | idle | failed => cases h
  | _ => cases h

/-- Every row version under a marker of an acknowledged `g` is created for a statement that starts
afterwards, and every version it superseded is deleted. The statement takes its snapshots in `P` and
resolves versions in `P'`. -/
theorem acked_global_commit_visible {w : Wiring} {g li : Xid} {n : NodeId} {s : SessionId}
    {before staging starting reading : List (PartAct Row)} {P₀ P₁ P P' : Participant Row}
    (h₀ : exec (Participant.step w) .initial before = some P₀)
    (hlead : P₀.range.leader = some n) (hg : g ∈ P₀.zero.returned) (hun : Unstaged g P₀)
    (h₁ : exec (Participant.step w) P₀ staging = some P₁) (hack : g ∈ P₁.acked)
    (h₂ : exec (Participant.step w) P₁ starting = some P)
    (hbar : w = .barrier → P₁.zero.log.length ≤ P.replica n)
    (h₃ : exec (Participant.step w) P reading = some P')
    (hkeep : ∀ act ∈ staging ++ starting ++ reading, Keeps n act)
    (hok : Runs.Along (Participant.step w) (InTurn g) .initial
      (before ++ (staging ++ (starting ++ reading))))
    (hret : ∀ s' x, (P.range.sess n s').pc = .preparing x → (P.range.sess n s').globalXid ≠ some g)
    {S G : Snapshot} {own : Option Xid} (hsnap : P.snapshots n s = some (S, own, G))
    (hrc : (P.range.sess n s).txn.holdsSnapshot = false)
    (hmark : (P.store n).clogGet li = .prepared g)
    (hmark' : (P'.store n).clogGet li = .prepared g) (t : Tuple Row) :
    (t.xmin = li → committedVisible t.xmin S own (globalStatus (P'.store n) (P'.view n) G) = true) ∧
      (t.xmax = li →
        committedVisible t.xmax S own (globalStatus (P'.store n) (P'.view n) G) = true) := by
  obtain ⟨hok₀, hok⟩ := along_append hok h₀
  obtain ⟨hok₁, hok⟩ := along_append hok h₁
  obtain ⟨hok₂, hok₃⟩ := along_append hok h₂
  have hlinked : Linked w P₀ := (ahead_exec (linked_initial w) hok₀ h₀).1
  have hP₁ := deciding_exec (.unstaged hlinked hlead hg hun)
    (fun act ha => hkeep act (by simp [ha])) hok₁ h₁
  have hP := deciding_exec hP₁ (fun act ha => hkeep act (by simp [ha])) hok₂ h₂
  have hahead := (ahead_exec hP₁.linked hok₂ h₂).2
  obtain ⟨S', rfl⟩ := nextSnapshots_fresh hsnap hrc
  -- the replica of `n` holds the decision when the snapshots are taken
  obtain ⟨i, hL, hi, hcom, hgtm⟩ := hP₁.acked hack
  have hreach : i ≤ P.replica n := by
    cases w with
    | gtm => exact (hgtm rfl).trans (hahead.2 n)
    | barrier => exact hi.trans (hbar rfl)
  have hdecided : (P'.zeroStore n).clogGet g = .committed := by
    have hlater := hahead.trans (ahead_exec hP.linked hok₃ h₃).2
    exact hlater.committed hi (hreach.trans ((ahead_exec hP.linked hok₃ h₃).2.2 n)) hcom
  have hvisible : committedVisible li S own (globalStatus (P'.store n) (P'.view n)
      (globalReadSnapshot (P.env n) none)) = true := by
    refine committedVisible_iff.mpr (.inr ⟨?_, ?_⟩)
    · rw [S']
      exact hP.finished hret hmark
    · have hrun : (globalReadSnapshot (P.env n) none).isRunning g = false :=
        hP.below_horizon (hL.trans hreach)
      simp only [globalStatus, hmark', hrun, Bool.false_eq_true, if_false]
      exact hdecided
  exact ⟨fun hx => hx ▸ hvisible, fun hx => hx ▸ hvisible⟩

instance (n : NodeId) (act : PartAct Row) : Decidable (Keeps n act) := by
  unfold Keeps
  split <;> infer_instance

section Runs

def opens : List (PartAct ℕ) :=
  [.settle 0, .relock 0 noLag, .scan 0 noLag, .unlock 0, .rescan 0 noLag, .serve 0].map .on

def leadsZero : List (PartAct ℕ) := [.electZero 0, .zero .reseed]

/-- A call on range 0, from its arrival to its answer. -/
def served (i : ℕ) (a : AllocAct) : List (PartAct ℕ) :=
  [.zero a, .zero (.read i), .zero (.propose i), .answer i]

def stages (g : Xid) : List (PartAct ℕ) :=
  (calls 0 0 [.begin false, .join g, .start insertOne, .takeSnapshot, .scan, .propose, .apply true,
    .finish]).map .on

/-- The decision of a first global transaction has read the counter, and is not yet proposed when
a second one is allocated, staged into and committed. -/
def slowDecision : List (PartAct ℕ) :=
  leadsZero ++ opens ++ served 0 (.begin 0 0) ++
    [.zero (.decide 1 0 globalXidBase true), .zero (.read 1)] ++ served 2 (.begin 2 0) ++
    stages (globalXidBase + 1) ++ served 3 (.decide 3 0 (globalXidBase + 1) true)

def allocates : List (PartAct ℕ) := [.elect 0] ++ leadsZero ++ served 0 (.begin 0 0)

def commits : List (PartAct ℕ) :=
  opens ++ stages globalXidBase ++ served 1 (.decide 1 0 globalXidBase true)

def isPreparing : Pc ℕ → Bool
  | .preparing _ => true
  | _ => false

/-- The snapshots of session 1 of node 0, which has not begun, below these horizons. -/
def readsBelow (xmax gmax : Xid) : Snapshot × Option Xid × Snapshot :=
  (⟨xmax, xmax, []⟩, none, ⟨globalXidBase, gmax, []⟩)

def Participant.rows (P : Participant ℕ) : Option (List (RowId × ℕ)) :=
  selectRows (P.env 0) ((P.range.nodes 0).view 1 (P.store 0)) 1

end Runs

theorem unstaged_elected {P : Participant ℕ} {g : Xid} (hrange : P.range = Range.initial.elect 0)
    (hcalls : ∀ i, P.zero.calls i = none) (hack : P.acked = []) : Unstaged g P where
  log e he := by
    rw [hrange] at he
    cases he
  pending m s b epoch after hpc := by
    rw [hrange] at hpc
    cases hpc
  calls i c commit hc := by
    rw [hcalls] at hc
    cases hc
  acked := by
    rw [hack]
    exact not_mem_nil

/-- The batch of the first decision is applied after that of the second and takes the counter back
below the second transaction, whose row was visible and is no longer. -/
theorem acked_global_commit_hidden : ∃ P₀ P₁ P : Participant ℕ,
      exec (Participant.step .barrier) .initial [.elect 0] = some P₀ ∧
      P₀.range.leader = some 0 ∧ Unstaged (globalXidBase + 1) P₀ ∧
      exec (Participant.step .barrier) P₀ slowDecision = some P₁ ∧
      globalXidBase + 1 ∈ P₁.zero.returned ∧ globalXidBase + 1 ∈ P₁.acked ∧
      exec (Participant.step .barrier) P₁ [.zero (.propose 1), .answer 1] = some P ∧
      P₁.zero.log.length ≤ P.replica 0 ∧
      (∀ act ∈ slowDecision ++ [.zero (.propose 1), .answer 1], Keeps 0 act) ∧
      (P.store 0).clogGet 1 = .prepared (globalXidBase + 1) ∧
      P.snapshots 0 1 = some (readsBelow 2 (globalXidBase + 1)) ∧
      committedVisible 1 (readsBelow 2 (globalXidBase + 1)).1 none
        (globalStatus (P.store 0) (P.view 0) (readsBelow 2 (globalXidBase + 1)).2.2) = false ∧
      P₁.rows = some [(1, 1)] ∧ P.rows = some [] := by
  obtain ⟨P₀, hP₀, P₁, hP₁, ⟨hret, hack, hrows⟩, hx⟩ :
      ∃ P₀ ∈ exec (Participant.step .barrier) (.initial : Participant ℕ) [.elect 0],
        ∃ P₁ ∈ exec (Participant.step .barrier) P₀ slowDecision,
        (globalXidBase + 1 ∈ P₁.zero.returned ∧ globalXidBase + 1 ∈ P₁.acked ∧
          P₁.rows = some [(1, 1)]) ∧
        (exec (Participant.step .barrier) P₁ [.zero (.propose 1), .answer 1]).any (fun P =>
          decide (P₁.zero.log.length ≤ P.replica 0 ∧
            (P.store 0).clogGet 1 = .prepared (globalXidBase + 1) ∧
            P.snapshots 0 1 = some (readsBelow 2 (globalXidBase + 1)) ∧
            committedVisible 1 (readsBelow 2 (globalXidBase + 1)).1 none (globalStatus (P.store 0)
              (P.view 0) (readsBelow 2 (globalXidBase + 1)).2.2) = false ∧ P.rows = some [])) =
          true := by decide +kernel
  obtain ⟨P, hP, hx⟩ := (any_eq_true _ _).mp hx
  obtain ⟨hbar, hmark, hsnap, hhidden, hgone⟩ := of_decide_eq_true hx
  refine ⟨P₀, P₁, P, hP₀, ?_, ?_, hP₁, hret, hack, hP, hbar, by decide, hmark, hsnap, hhidden,
    hrows, hgone⟩
  · cases hP₀
    rfl
  · cases hP₀
    exact unstaged_elected rfl (fun _ => rfl) rfl

/-- A global transaction that is allocated, staged into and committed on its own shows. -/
theorem acked_global_commit_visible_alone : ∃ P₀ P : Participant ℕ,
      exec (Participant.step .barrier) .initial allocates = some P₀ ∧
      exec (Participant.step .barrier) P₀ commits = some P ∧
      committedVisible 1 (readsBelow 2 (globalXidBase + 1)).1 none
        (globalStatus (P.store 0) (P.view 0) (readsBelow 2 (globalXidBase + 1)).2.2) = true := by
  obtain ⟨P₀, hP₀, ⟨hret, hnone⟩, P, hP, hack, hbar, hrc, hmark, hsnap⟩ :
      ∃ P₀ ∈ exec (Participant.step .barrier) (.initial : Participant ℕ) allocates,
        (globalXidBase ∈ P₀.zero.returned ∧ P₀.acked = []) ∧
        ∃ P ∈ exec (Participant.step .barrier) P₀ commits,
          globalXidBase ∈ P.acked ∧ P.zero.log.length ≤ P.replica 0 ∧
          (P.range.sess 0 1).txn.holdsSnapshot = false ∧
          (P.store 0).clogGet 1 = .prepared globalXidBase ∧
          P.snapshots 0 1 = some (readsBelow 2 (globalXidBase + 1)) := by decide +kernel
  have hrange : P₀.range = Range.initial.elect 0 := by
    have hmap : (exec (Participant.step .barrier) (.initial : Participant ℕ) allocates).map
        Participant.range = some (Range.initial.elect 0) := rfl
    rw [hP₀] at hmap
    exact some.inj hmap
  have hcalls : ∀ i, P₀.zero.calls i = none := by
    intro i
    have hmap : (exec (Participant.step .barrier) (.initial : Participant ℕ) allocates).map
        (fun P => P.zero.calls i) = some none := by cases i <;> rfl
    rw [hP₀] at hmap
    exact some.inj hmap
  have hquiet : ∀ s, isPreparing (P.range.sess 0 s).pc = false := by
    intro s
    have hmap : ((exec (Participant.step .barrier) (.initial : Participant ℕ) allocates).bind
        fun P₀ => exec (Participant.step .barrier) P₀ commits).map
          (fun P => isPreparing (P.range.sess 0 s).pc) = some false := by cases s <;> rfl
    rw [hP₀, bind_some, hP] at hmap
    exact some.inj hmap
  have hok : Along (Participant.step .barrier) (InTurn globalXidBase)
      (.initial : Participant ℕ) (allocates ++ (commits ++ ([] ++ []))) := by
    refine along_of_check (fun P act => match act with
      | .zero a => decide (InOrder P.zero a)
      | .answer i => decide (InOrder P.zero (.apply i))
      | .on (.late _) => false
      | _ => true) (fun P act hact => ?_) (by decide +kernel)
    cases act with
    | zero a =>
      have hin : InOrder P.zero a := of_decide_eq_true hact
      exact hin
    | answer i =>
      have hin : InOrder P.zero (.apply i) := of_decide_eq_true hact
      exact hin
    | on a =>
      cases a with
      | late => cases hact
      | _ => trivial
    | _ => trivial
  have hvisible := acked_global_commit_visible hP₀ (by rw [hrange]; rfl) hret
    (unstaged_elected hrange hcalls hnone) hP hack rfl (fun _ => hbar) rfl (by decide) hok
    (fun s x hpc => by
      have hs := hquiet s
      rw [hpc] at hs
      cases hs) hsnap hrc hmark hmark ⟨1, invalidXid, 1⟩
  exact ⟨P₀, P, hP₀, hP, hvisible.1 rfl⟩

end Crabgresql.Cluster
