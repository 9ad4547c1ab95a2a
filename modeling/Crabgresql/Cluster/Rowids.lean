import Crabgresql.Lib.Reserve
import Crabgresql.Cluster.Terms

/-!
# Rowids

An INSERT takes its rowids from a counter cached in the memory of its node and
proposes the new counter with its rows. Until the batch is in the log the cache
is the only place that knows of them. A reseed clears the cache, so the next
INSERT reads the counter from the store and takes the same rowids again.
-/

namespace Crabgresql.Cluster

open Mvcc Kv Procarray Lockmgr Exec Session Engine Recovery List Option Range Reserve
open SequenceManager Runs

variable {Row : Type}
variable {t : TableId} {u : Sess Row} {b : Batch Row} {epoch barrier : ℕ} {after : After}
  {e : LogEntry Row}

def Proposal.inserted : Proposal Row → List RowKey
  | .batch b => insertKeys b.changes
  | .scanLo _ => []

def inserting (u : Sess Row) : Bool :=
  match u.pc with
  | .starting w _ _ => w.isInsert
  | pc => pc.frame.any fun f => f.work.isInsert

/-- The rowid lies below the counter that the next INSERT starts from. -/
def Behind (seq : SequenceManager) (kv : Store Row) (k : RowKey) : Prop :=
  ∃ c, (seq.next k.1).or (kv.counters (.seq k.1)) = some c ∧ k.2 < c

/-- Each created row is below a counter put of the same batch. -/
def Covers (cs : List (Change Row)) (ops : List (WriteOp Row)) : Prop :=
  ∀ k ∈ insertKeys cs, ∃ c, WriteOp.counter (.seq k.1) c ∈ ops ∧ k.2 < c

/-- The created rows of a session's INSERT that may still reach the log: those of a statement under
way on the leader, and those of a batch that its term can still append. -/
def claimed (L : Led Row) (i : NodeId × SessionId) : List RowKey :=
  match (L.range.sess i.1 i.2).pc with
  | .committing b epoch _ => if epoch ≠ 0 ∧ L.barrier ≤ epoch then insertKeys b.changes else []
  | _ =>
    if L.range.leader = some i.1 then insertKeys (pendingChanges (L.range.sess i.1 i.2)) else []

/-- The created rows of every entry of the log and of every refused batch that may still be
appended. -/
def recorded (L : Led Row) : List (List RowKey) :=
  L.range.log.map (fun e => e.proposal.inserted) ++
    (L.range.inflight.filter fun p => decide (L.barrier ≤ p.1)).map fun p => p.2.proposal.inserted

/-- A node is elected with no INSERT left under way. The cache of a leader is cleared only when its
replica has the whole log and no rowid is taken that is not in it. -/
def Unhurried (L : Led Row) : LeaderAct Row → Prop
  | .on _ (.elect n) => ∀ s, inserting (L.range.sess n s) = false
  | .reseed n => L.range.leader = some n → L.range.seeded = true →
      (L.range.nodes n).applied = L.range.log.length ∧
      (∀ s, insertKeys (pendingChanges (L.range.sess n s)) = []) ∧
      ∀ p ∈ L.range.inflight, p.2.proposal.inserted = []
  | _ => True

/-- Rows are created by INSERT statements only, and with their counter. -/
structure RowsOk (u : Sess Row) : Prop where
  scanning : ∀ f, u.pc = .scanning f → f.changes = []
  work : ∀ f, u.pc.frame = some f → f.work.isInsert = false → insertKeys f.changes = []
  frame : ∀ f, u.pc.frame = some f → Covers f.changes f.seqOps
  batch : ∀ b epoch after, u.pc = .committing b epoch after → Covers b.changes b.seqOps

section Counters

variable {kv : Store Row} {seq : SequenceManager} {k : RowKey}

theorem Behind.lt_current (h : Behind seq kv k) : k.2 < seq.current kv k.1 := by
  obtain ⟨c, hc, hlt⟩ := h
  unfold current readSeqKv
  cases hn : seq.next k.1 with
  | some =>
    rw [hn] at hc
    cases hc
    exact hlt
  | none =>
    rw [hn, none_or] at hc
    rw [hc]
    exact hlt

theorem Behind.set (h : Behind seq kv k) {n : ℕ} (hn : seq.current kv t ≤ n) :
    Behind (seq.set t n) kv k := by
  by_cases ht : k.1 = t
  · subst ht
    refine ⟨n, ?_, h.lt_current.trans_le hn⟩
    rw [next_set, if_pos rfl, some_or]
  · obtain ⟨c, hc, hlt⟩ := h
    refine ⟨c, ?_, hlt⟩
    rwa [next_set, if_neg ht]

theorem counters_seq_applyOp {m : ℕ} (op : WriteOp Row)
    (h : (∃ c, kv.counters (.seq t) = some c ∧ m < c) ∨ ∃ c, op = .counter (.seq t) c ∧ m < c) :
    ∃ c, (applyOp kv op).counters (.seq t) = some c ∧ m < c := by
  cases op with
  | version =>
    rcases h with h | ⟨c, hop, -⟩
    · exact h
    · cases hop
  | clog =>
    rcases h with h | ⟨c, hop, -⟩
    · simp only [applyOp]
      split_ifs
      · exact h
      · exact h
    · cases hop
  | counter key n =>
    by_cases hkey : key = .seq t
    · subst hkey
      refine ⟨max ((kv.counters (.seq t)).getD 0) n, by simp [applyOp, isCounterKey], ?_⟩
      rcases h with ⟨c, hc, hlt⟩ | ⟨c, hop, hlt⟩
      · rw [hc]
        exact lt_max_of_lt_left hlt
      · cases hop
        exact lt_max_of_lt_right hlt
    · rcases h with ⟨c, hc, hlt⟩ | ⟨c, hop, -⟩
      · refine ⟨c, ?_, hlt⟩
        simp only [applyOp]
        split_ifs <;> rw [counters_setCounter, if_neg (Ne.symm hkey), hc]
      · cases hop
        exact absurd rfl hkey

theorem counters_seq_applyBatch {m : ℕ} (ops : List (WriteOp Row))
    (h : (∃ c, kv.counters (.seq t) = some c ∧ m < c) ∨ ∃ c, WriteOp.counter (.seq t) c ∈ ops ∧
      m < c) :
    ∃ c, (applyBatch kv ops).counters (.seq t) = some c ∧ m < c := by
  induction ops generalizing kv with
  | nil =>
    rcases h with h | ⟨c, hmem, -⟩
    · exact h
    · cases hmem
  | cons op ops ih =>
    rw [applyBatch_cons]
    refine ih ?_
    rcases h with h | ⟨c, hmem, hlt⟩
    · exact .inl (counters_seq_applyOp op (.inl h))
    · rcases mem_cons.mp hmem with rfl | hmem
      · exact .inl (counters_seq_applyOp _ (.inr ⟨c, rfl, hlt⟩))
      · exact .inr ⟨c, hmem, hlt⟩

theorem Behind.applyBatch (h : Behind seq kv k) (ops : List (WriteOp Row)) :
    Behind seq (Kv.applyBatch kv ops) k := by
  obtain ⟨c, hc, hlt⟩ := h
  unfold Behind
  cases hn : seq.next k.1 with
  | some =>
    rw [hn] at hc
    exact ⟨c, hc, hlt⟩
  | none =>
    rw [hn, none_or] at hc
    rw [none_or]
    exact counters_seq_applyBatch ops (.inl ⟨c, hc, hlt⟩)

theorem behind_new_iff :
    Behind .new kv k ↔ ∃ c, kv.counters (.seq k.1) = some c ∧ k.2 < c := Iff.rfl

end Counters

theorem insertKeys_append_change {w : Work Row} {key : RowKey} {found : Xid × Row} {c : Change Row}
    (h : w.change key found = .ok (some c)) (cs : List (Change Row)) :
    w.isInsert = false ∧ insertKeys (cs ++ [c]) = insertKeys cs := by
  rw [insertKeys, filterMap_append]
  rcases Work.change_some h with ⟨_, _, _, _, rfl, _, rfl⟩ | ⟨_, _, rfl, rfl⟩ <;>
    exact ⟨rfl, by simp [insertKeys]⟩

theorem mem_insertKeys {cs : List (Change Row)} {k : RowKey} :
    k ∈ insertKeys cs ↔ ∃ row, Change.insert k row ∈ cs := by
  unfold insertKeys
  rw [mem_filterMap]
  constructor
  · rintro ⟨c, hc, hk⟩
    cases c with
    | insert k' row =>
      cases hk
      exact ⟨row, hc⟩
    | update | delete => cases hk
  · rintro ⟨row, hc⟩
    exact ⟨_, hc, rfl⟩

theorem insertChanges_keys {start : ℕ} {rows : List (Except ExecError Row)} {cs : List (Change Row)}
    (h : insertChanges t start rows = .ok cs) {k : RowKey} (hk : k ∈ insertKeys cs) :
    k.1 = t ∧ start ≤ k.2 ∧ k.2 < start + rows.length := by
  obtain ⟨row, hc⟩ := mem_insertKeys.mp hk
  obtain ⟨r, row', heq, hle, hlt, -⟩ := (insertChanges_ok h).2 _ hc
  cases heq
  exact ⟨rfl, hle, hlt⟩

theorem covers_nil (ops : List (WriteOp Row)) : Covers ([] : List (Change Row)) ops :=
  fun k hk => by cases hk

section Sessions

variable {env : Env} {v v' : View Row} {a : Act Row}

theorem rowsOk_of_record (hframe : u.pc.frame = none)
    (hbatch : ∀ b epoch after, u.pc = .committing b epoch after → b.changes = []) : RowsOk u where
  scanning f hf := by
    rw [hf] at hframe
    cases hframe
  work f hf := by
    rw [hframe] at hf
    cases hf
  frame f hf := by
    rw [hframe] at hf
    cases hf
  batch b epoch after hpc := by
    rw [hbatch b epoch after hpc]
    exact covers_nil _

theorem rowsOk_of_frame {f : Frame Row} (hf : u.pc.frame = some f) (hnot : ∀ g, u.pc ≠ .scanning g)
    (hwork : f.work.isInsert = false → insertKeys f.changes = [])
    (hcov : Covers f.changes f.seqOps) : RowsOk u where
  scanning g hg := absurd hg (hnot g)
  work g hg := by
    rw [hf] at hg
    cases hg
    exact hwork
  frame g hg := by
    rw [hf] at hg
    cases hg
    exact hcov
  batch b epoch after hpc := by
    rw [hpc] at hf
    cases hf

theorem rowsOk_returned (u : Sess Row) (b : Batch Row) (after : After) (ok : Bool) :
    RowsOk (u.returned b after ok) := by
  refine rowsOk_of_record ?_ ?_
  · cases after <;> cases ok <;> simp only [Sess.returned] <;> try split_ifs
    all_goals rfl
  · intro b' epoch' after' hpc
    cases after <;> cases ok <;> simp only [Sess.returned] at hpc <;> try split_ifs at hpc
    all_goals cases hpc

theorem Move.rowsOk (hm : Move env v a v') (h : RowsOk v.self) : RowsOk v'.self := by
  cases hm with
  | read w x auto f txn hpc hx hw hauto htodo hchanges =>
    refine ⟨?_, ?_, ?_, ?_⟩
    · intro g hg
      cases hg
      exact hchanges
    · intro g hg _
      cases hg
      rw [hchanges]
      rfl
    · intro g hg
      cases hg
      rw [hchanges]
      exact covers_nil _
    · intro b epoch after hpc'
      cases hpc'
  | fill f t rows cs seq n hpc hw hcs hn =>
    refine rowsOk_of_frame rfl (fun g hg => by cases hg) (fun hwork => ?_) ?_
    · rw [hw] at hwork
      cases hwork
    · intro k hk
      obtain ⟨rfl, -, hlt⟩ := insertChanges_keys hcs hk
      exact ⟨n, mem_singleton.mpr rfl, hn ▸ hlt⟩
  | walk a f todo hpc =>
    have hf : v.self.pc.frame = some f := by
      rcases hpc with hpc | hpc | ⟨r, hpc⟩ <;> rw [hpc] <;> rfl
    exact rowsOk_of_frame rfl (fun g hg => by cases hg) (h.work f hf) (h.frame f hf)
  | target f todo r hpc | grant f r pick lm hpc =>
    have hf : v.self.pc.frame = some f := by rw [hpc]; rfl
    exact rowsOk_of_frame rfl (fun g hg => by cases hg) (h.work f hf) (h.frame f hf)
  | wait => exact h
  | take f r found c hpc hfound hc =>
    have hf : v.self.pc.frame = some f := by rw [hpc]; rfl
    obtain ⟨hwork, hkeys⟩ := insertKeys_append_change hc f.changes
    refine rowsOk_of_frame rfl (fun g hg => by cases hg) (fun _ => ?_) ?_
    · exact hkeys.trans (h.work f hf hwork)
    · intro k hk
      change k ∈ insertKeys (f.changes ++ [c]) at hk
      rw [hkeys] at hk
      exact h.frame f hf k hk
  | fail =>
    refine rowsOk_of_record ?_ ?_
    · simp only [failPc]
      split_ifs <;> rfl
    · intro b epoch after hpc'
      simp only [failPc] at hpc'
      split_ifs at hpc'
      cases hpc'
      rfl
  | done =>
    refine rowsOk_of_record ?_ ?_
    · simp only
      split_ifs <;> rfl
    · intro b epoch after hpc'
      simp only at hpc'
      split_ifs at hpc'
  | submit f hpc | stage f c rows marker hpc =>
    refine ⟨fun g hg => (by cases hg), fun g hg => (by cases hg), fun g hg => (by cases hg), ?_⟩
    intro b epoch after hpc'
    cases hpc'
    exact h.frame f (by rw [hpc]; rfl)
  | apply => exact rowsOk_returned _ _ _ _
  | commit | abort | join => exact rowsOk_of_record rfl fun b epoch after hb => by cases hb; rfl
  | _ => exact rowsOk_of_record rfl fun b epoch after hb => by cases hb

theorem Move.inserting_of (hm : Move env v a v') (h : inserting v'.self = true) :
    inserting v.self = true ∨ ∃ w, a = .start w ∧ w.isInsert = true := by
  have hframe : ∀ f, v.self.pc.frame = some f → f.work.isInsert = true →
      inserting v.self = true := by
    intro f hf hwork
    unfold inserting
    cases hpc : v.self.pc <;> rw [hpc] at hf <;> cases hf <;> exact hwork
  cases hm with
  | alloc w | resume w => exact .inr ⟨w, rfl, h⟩
  | read w x auto f txn hpc hx hw =>
    refine .inl ?_
    unfold inserting
    rw [hpc]
    exact hw ▸ h
  | fill f t rows cs seq n hpc | target f todo r hpc | grant f r pick lm hpc
  | take f r found c hpc => exact .inl (hframe f (by rw [hpc]; rfl) h)
  | walk a f todo hpc =>
    refine .inl (hframe f ?_ h)
    rcases hpc with hpc | hpc | ⟨r, hpc⟩ <;> rw [hpc] <;> rfl
  | wait => exact .inl h
  | fail =>
    unfold inserting failPc at h
    split_ifs at h <;> cases h
  | done =>
    unfold inserting at h
    split_ifs at h <;> cases h
  | apply ok b epoch after =>
    unfold inserting at h
    cases after <;> cases ok <;> simp only [Sess.returned] at h <;> try split_ifs at h
    all_goals cases h
  | _ => cases h

/-- Rowids are taken by the scan step of an INSERT; every other step of a session that is not the
end of its commit keeps or drops the rows it had computed. -/
theorem Move.pending_cases (hm : Move env v a v') (ha : ∀ ok, a ≠ .apply ok) (h : RowsOk v.self) :
    insertKeys (pendingChanges v'.self) ⊆ insertKeys (pendingChanges v.self) ∨
    ∃ f t rows, v.self.pc = .scanning f ∧ f.work = .insert t rows ∧
      v'.seq = v.seq.set t (v.seq.current v.kv t + rows.length) ∧
      insertChanges t (v.seq.current v.kv t) rows = .ok (pendingChanges v'.self) := by
  have hsame : ∀ {cs}, pendingChanges v'.self = cs → cs = pendingChanges v.self →
      insertKeys (pendingChanges v'.self) ⊆ insertKeys (pendingChanges v.self) := by
    rintro cs rfl hcs
    rw [hcs]
    exact Subset.refl _
  have hnil : pendingChanges v'.self = [] →
      insertKeys (pendingChanges v'.self) ⊆ insertKeys (pendingChanges v.self) := by
    intro hcs
    rw [hcs]
    exact nil_subset _
  cases hm with
  | fill f t rows cs seq n hpc hw hcs hn hseq =>
    exact .inr ⟨f, t, rows, hpc, hw, by rw [hseq, hn], hcs⟩
  | walk a f todo hpc =>
    refine .inl ?_
    rcases hpc with hpc | hpc | ⟨r, hpc⟩
    · exact hnil (h.scanning f hpc)
    · exact hsame rfl (by unfold pendingChanges; rw [hpc])
    · exact hsame rfl (by unfold pendingChanges; rw [hpc])
  | target f todo r hpc | grant f r pick lm hpc | submit f hpc =>
    exact .inl (hsame rfl (by unfold pendingChanges; rw [hpc]))
  | wait => exact .inl (Subset.refl _)
  | take f r found c hpc hfound hc =>
    refine .inl ?_
    change insertKeys (f.changes ++ [c]) ⊆ _
    rw [(insertKeys_append_change hc f.changes).2]
    unfold pendingChanges
    rw [hpc]
    exact Subset.refl _
  | stage f c rows marker hpc =>
    exact .inl (hsame rfl (by unfold pendingChanges; rw [hpc]))
  | fail =>
    refine .inl (hnil ?_)
    unfold pendingChanges failPc
    split_ifs <;> rfl
  | done =>
    refine .inl (hnil ?_)
    unfold pendingChanges
    split_ifs <;> rfl
  | apply ok => exact absurd rfl (ha ok)
  | _ => exact .inl (hnil rfl)

theorem Move.behind (hm : Move env v a v') {k : RowKey} (h : Behind v.seq v.kv k) :
    Behind v'.seq v.kv k := by
  cases hm with
  | fill f t rows cs seq n hpc hw hcs hn hseq =>
    rw [hseq]
    exact h.set (hn ▸ Nat.le_add_right _ _)
  | fail a f e lm seq hpc hlm hplain hseq =>
    rcases hseq with rfl | ⟨t, n, hle, rfl⟩
    · exact h
    · exact h.set hle
  | _ => exact h

end Sessions

/-- A proposal of the current term comes from behind the open gate of its leader. -/
def Dated (L : Led Row) (epoch : ℕ) : Prop :=
  epoch ≤ L.range.term ∧ (epoch = L.range.term → ∀ m, L.range.leader = some m →
    (L.range.nodes m).served = L.range.term)

structure SessRows (L : Led Row) (n : NodeId) (s : SessionId) : Prop where
  rows : RowsOk (L.range.sess n s)
  gated : inserting (L.range.sess n s) = true → L.range.leader = some n →
    L.range.seeded = true ∧ (L.range.nodes n).served = L.range.term
  dated : ∀ b epoch after, (L.range.sess n s).pc = .committing b epoch after → epoch ≠ 0 →
    insertKeys b.changes ≠ [] → Dated L epoch ∧
      (epoch = L.range.term → ∀ m, L.range.leader = some m → m = n)

structure RowidInv (L : Led Row) : Prop where
  gate : GateInv L
  exclusive : Exclusive (recorded L) (claimed L)
  behind : ∀ n, L.range.leader = some n → L.range.seeded = true →
    ∀ k, Used (recorded L) (claimed L) k →
      Behind (L.range.nodes n).seq (L.range.storeAt (L.range.nodes n).applied) k
  logged : ∀ e ∈ L.range.log, ∀ k ∈ e.proposal.inserted, Behind .new L.range.tip k
  sess : ∀ n s, SessRows L n s
  flight : ∀ p ∈ L.range.inflight, (∀ b, p.2.proposal = .batch b → Covers b.changes b.seqOps) ∧
    (p.2.proposal.inserted ≠ [] → Dated L p.1)

theorem claimed_committing {L : Led Row} {n : NodeId} {s : SessionId}
    (h : (L.range.sess n s).pc = .committing b epoch after) :
    claimed L (n, s) = if epoch ≠ 0 ∧ L.barrier ≤ epoch then insertKeys b.changes else [] := by
  unfold claimed
  rw [h]

theorem claimed_of_not {L : Led Row} {n : NodeId} {s : SessionId}
    (h : ∀ b epoch after, (L.range.sess n s).pc ≠ .committing b epoch after) : claimed L (n, s) =
      if L.range.leader = some n then insertKeys (pendingChanges (L.range.sess n s)) else [] := by
  unfold claimed
  split
  · rename_i b epoch after hpc
    exact absurd hpc (h b epoch after)
  · rfl

theorem rowidInv_initial : RowidInv (Led.initial : Led Row) where
  gate := gateInv_initial
  exclusive := exclusive_nil fun i => rfl
  behind n h := by cases h
  logged e h := by cases h
  sess n s :=
    { rows := rowsOk_of_record rfl fun b epoch after h => by cases h
      gated := fun h => by cases h
      dated := fun b epoch after h => by cases h }
  flight p h := by cases h

section Steps

variable {L L' : Led Row} {R R' : Range Row} {n : NodeId} {s : SessionId} {glob : GlobalView}
  {act : RangeAct Row}

variable {k : RowKey}

theorem behind_step (h : R.step glob act = some R') (hsettle : act ≠ .settle n)
    (hcrash : act ≠ .crash n) (hb : Behind (R.nodes n).seq (R.storeAt (R.nodes n).applied) k) :
    Behind (R'.nodes n).seq (R'.storeAt (R'.nodes n).applied) k := by
  -- the node applies at least what it had applied of a log that only grows
  have hstore : ∃ ops, R'.storeAt (R'.nodes n).applied =
      applyBatch (R.storeAt (R.nodes n).applied) ops := by
    obtain ⟨j, hj, hle, hstore⟩ : ∃ j, j ≤ R.log.length ∧ j ≤ (R.nodes n).applied ∧
        R.storeAt (R.nodes n).applied = R.storeAt j := by
      rcases le_total (R.nodes n).applied R.log.length with hle | hle
      · exact ⟨_, hle, le_rfl, rfl⟩
      · refine ⟨R.log.length, le_rfl, hle, ?_⟩
        unfold storeAt
        rw [take_of_length_le hle, take_length]
    rw [hstore]
    have hold : R'.storeAt j = R.storeAt j := by
      unfold storeAt
      rcases log_step h with hlog | ⟨e, -, hlog⟩
      · rw [hlog]
      · rw [hlog, take_append_of_le_length hj]
    rw [← hold]
    exact R'.storeAt_le (applied_step h hj hle)
  obtain ⟨ops, hops⟩ := hstore
  rw [hops]
  refine Behind.applyBatch ?_ ops
  have hturn := turned_step h n
  generalize R'.nodes n = node at hturn
  cases hturn with
  | moved s a v lag hact ha hadm hmove => exact Move.behind hmove hb
  | boot hact => exact absurd hact hcrash
  | settle hact => exact absurd hact hsettle
  | tends node hpa hsess hintent ht => cases ht <;> exact hb
  | _ => exact hb

theorem Dated.step (h : Dated L epoch)
    (ht : (∃ n, L' = ⟨L.range.elect n, L.barrier⟩) ∨ Tenure L L') : Dated L' epoch := by
  rcases ht with ⟨n, rfl⟩ | ht
  · refine ⟨h.1.trans (Nat.le_succ _), fun heq => ?_⟩
    exact absurd heq (Nat.lt_succ_of_le h.1).ne
  · unfold Dated
    rw [ht.term]
    exact ⟨h.1, fun heq m hm => ht.served m hm (h.2 heq m (ht.leader m hm))⟩

theorem Move.proposes {env : Env} {v v' : View Row} {a : Act Row} (hm : Move env v a v')
    (ha : ∀ ok, a ≠ .apply ok) (h : RowsOk v.self) (hpc' : v'.self.pc = .committing b epoch after) :
    epoch = env.epoch ∧ (insertKeys b.changes ≠ [] → inserting v.self = true) := by
  have hframe : ∀ f, v.self.pc = .looping f →
      insertKeys f.changes ≠ [] → inserting v.self = true := by
    intro f hpc hkeys
    unfold inserting
    rw [hpc]
    by_contra hno
    exact hkeys (h.work f (by rw [hpc]; rfl) (Bool.not_eq_true _ ▸ hno))
  cases hm with
  | submit f hpc | stage f c rows marker hpc =>
    cases hpc'
    exact ⟨rfl, hframe f hpc⟩
  | commit | abort | join =>
    cases hpc'
    exact ⟨rfl, fun hkeys => absurd rfl hkeys⟩
  | fail =>
    simp only [failPc] at hpc'
    split_ifs at hpc'
    cases hpc'
    exact ⟨rfl, fun hkeys => absurd rfl hkeys⟩
  | done =>
    simp only at hpc'
    split_ifs at hpc'
  | wait f r pick lm hpc =>
    rw [hpc] at hpc'
    cases hpc'
  | apply ok => exact absurd rfl (ha ok)
  | _ => cases hpc'

theorem SessRows.same (h : SessRows L n s) (hsess : L'.range.sess n s = L.range.sess n s)
    (ht : (∃ m, L' = ⟨L.range.elect m, L.barrier⟩ ∧
      ∀ s, inserting (L.range.sess m s) = false) ∨ Tenure L L') : SessRows L' n s where
  rows := hsess ▸ h.rows
  gated hins hlead := by
    rw [hsess] at hins
    rcases ht with ⟨m, rfl, hquiet⟩ | ht
    · cases hlead
      rw [hquiet s] at hins
      cases hins
    · obtain ⟨hseed, hserved⟩ := h.gated hins (ht.leader n hlead)
      exact ⟨ht.seeded n hlead hseed, (ht.served n hlead hserved).trans ht.term.symm⟩
  dated b epoch after hpc h0 hkeys := by
    rw [hsess] at hpc
    obtain ⟨hdated, hown⟩ := h.dated b epoch after hpc h0 hkeys
    refine ⟨hdated.step (ht.imp_left fun ⟨m, hm, _⟩ => ⟨m, hm⟩), ?_⟩
    rcases ht with ⟨m, rfl, -⟩ | ht
    · exact fun heq => absurd heq (Nat.lt_succ_of_le hdated.1).ne
    · rw [ht.term]
      exact fun heq m hm => hown heq m (ht.leader m hm)

theorem SessRows.became (h : SessRows L n s) (hb : Became L.range glob act n s (L'.range.sess n s))
    (ht : Tenure L L') : SessRows L' n s := by
  generalize hu : L'.range.sess n s = u at hb
  cases hb with
  | same => exact h.same hu (.inr ht)
  | new =>
    refine ⟨?_, ?_, ?_⟩ <;> rw [hu]
    · exact rowsOk_of_record rfl fun b epoch after h => by cases h
    · exact fun h => by cases h
    · exact fun b epoch after h => by cases h
  | returned b epoch after ok =>
    refine ⟨?_, ?_, ?_⟩ <;> rw [hu]
    · exact rowsOk_returned _ _ _ _
    · intro hins
      unfold inserting at hins
      cases after <;> cases ok <;> simp only [Sess.returned] at hins <;> try split_ifs at hins
      all_goals cases hins
    · exact fun _ _ _ hpc => absurd hpc (returned_not_committing _ b after ok)
  | moved a v lag hact ha hadm hmove =>
    have hrows : RowsOk ((L.range.nodes n).view s (L.range.storeAt (L.range.nodes n).applied)).self :=
      h.rows
    refine ⟨?_, ?_, ?_⟩
    · rw [hu]
      exact Move.rowsOk hmove hrows
    · intro hins hlead
      rw [hu] at hins
      obtain ⟨hseed, hserved⟩ : L.range.seeded = true ∧
          (L.range.nodes n).served = L.range.term := by
        rcases Move.inserting_of hmove hins with hold | ⟨w, rfl, hw⟩
        · exact h.gated hold (ht.leader n hlead)
        · have hwrite : w.isWrite = true := by cases w <;> first | rfl | cases hw
          simp only [admits, serving, hwrite, Bool.not_true, Bool.false_or,
            Bool.and_eq_true, decide_eq_true_eq] at hadm
          exact ⟨hadm.1.2, hadm.2.2⟩
      exact ⟨ht.seeded n hlead hseed, (ht.served n hlead hserved).trans ht.term.symm⟩
    · intro b epoch after hpc h0 hkeys
      rw [hu] at hpc
      obtain ⟨hepoch, hins⟩ := Move.proposes hmove ha hrows hpc
      have hlead : L.range.leader = some n := by
        by_contra hno
        exact h0 (hepoch.trans (if_neg hno))
      have hterm : epoch = L.range.term := hepoch.trans (if_pos hlead)
      have hown : ∀ m, L'.range.leader = some m → m = n := fun m hm =>
        Option.some.inj ((ht.leader m hm).symm.trans hlead)
      refine ⟨⟨(hterm.trans ht.term.symm).le, fun _ m hm => ?_⟩, fun _ => hown⟩
      obtain rfl := hown m hm
      exact (ht.served m hm (h.gated (hins hkeys) hlead).2).trans ht.term.symm

/-- How a step moves rows between the claims and what is recorded. -/
inductive Shift (L L' : Led Row) : Prop
  | keep (hg : (recorded L').Subperm ([] :: recorded L))
      (hc : ∀ i, claimed L' i ⊆ claimed L i)
  | hand (i : NodeId × SessionId) (hg : (recorded L').Subperm (claimed L i :: recorded L))
      (hown : claimed L' i = []) (hc : ∀ j, j ≠ i → claimed L' j ⊆ claimed L j)
  | fresh (n : NodeId) (s : SessionId) (hlead : L.range.leader = some n)
      (hins : inserting (L.range.sess n s) = true) (hg : (recorded L').Subperm (recorded L))
      (hc : ∀ j, j ≠ (n, s) → claimed L' j ⊆ claimed L j)
      (hnew : ∀ k ∈ claimed L' (n, s),
        (L.range.nodes n).seq.current (L.range.storeAt (L.range.nodes n).applied) k.1 ≤ k.2 ∧
        ∀ kv : Store Row, Behind (L'.range.nodes n).seq kv k)

theorem claimed_mono {i : NodeId × SessionId} (hsess : L'.range.sess i.1 i.2 = L.range.sess i.1 i.2)
    (hlead : L'.range.leader = some i.1 → L.range.leader = some i.1)
    (hb : L.barrier ≤ L'.barrier) : claimed L' i ⊆ claimed L i := by
  unfold claimed
  rw [hsess]
  split
  · split_ifs with hnew hold hold
    · exact Subset.refl _
    · exact absurd ⟨hnew.1, hb.trans hnew.2⟩ hold
    · exact nil_subset _
    · exact nil_subset _
  · split_ifs with hnew hold hold
    · exact Subset.refl _
    · exact absurd (hlead hnew) hold
    · exact nil_subset _
    · exact nil_subset _

theorem flying_mono {flight flight' : List (ℕ × LogEntry Row)} {barrier' : ℕ}
    (hflight : flight'.Sublist flight) (hb : barrier ≤ barrier') :
    ((flight'.filter fun p => decide (barrier' ≤ p.1)).map fun p => p.2.proposal.inserted).Sublist
      ((flight.filter fun p => decide (barrier ≤ p.1)).map fun p => p.2.proposal.inserted) := by
  refine Sublist.map _ ((monotone_filter_right _ ?_).trans (hflight.filter _))
  intro p hp
  exact decide_eq_true (hb.trans (of_decide_eq_true hp))

theorem recorded_mono (hlog : L'.range.log = L.range.log)
    (hflight : L'.range.inflight.Sublist L.range.inflight) (hb : L.barrier ≤ L'.barrier) :
    (recorded L').Subperm (recorded L) := by
  unfold recorded
  rw [hlog]
  exact (Sublist.append_left (flying_mono hflight hb) _).subperm

theorem subperm_nil_cons {groups groups' : List (List RowKey)} (h : groups'.Subperm groups) :
    groups'.Subperm ([] :: groups) :=
  h.trans (sublist_cons_self _ _).subperm

theorem recorded_append (hlog : L'.range.log = L.range.log ++ [e])
    (hflight : L'.range.inflight = L.range.inflight) (hb : L.barrier ≤ L'.barrier) :
    (recorded L').Subperm (e.proposal.inserted :: recorded L) := by
  unfold recorded
  rw [hlog, hflight, map_append, append_assoc]
  refine (Sublist.append_left (Sublist.append_left ?_ _) _).subperm.trans
    (perm_middle.subperm)
  exact flying_mono (Sublist.refl _) hb

theorem recorded_keep (L : Led Row) (epoch : ℕ) (e : LogEntry Row)
    (hlog : L'.range.log = L.range.log)
    (hflight : L'.range.inflight = L.range.keep epoch e) (hb : L'.barrier = L.barrier) :
    (recorded L').Subperm ((if epoch ≠ 0 ∧ L.barrier ≤ epoch then e.proposal.inserted else []) ::
      recorded L) := by
  unfold recorded
  rw [hlog, hflight, hb]
  unfold keep
  split_ifs with hcan hlive hlive
  · rw [filter_append, map_append, ← append_assoc]
    rw [show [(epoch, e)].filter (fun p => decide (L.barrier ≤ p.1)) = [(epoch, e)] from
      filter_cons_of_pos (decide_eq_true hlive.2)]
    exact (perm_append_singleton _ _).subperm
  · have hdead : ¬ L.barrier ≤ epoch := fun hle => hlive ⟨(canAppend_iff.mp hcan).1, hle⟩
    rw [filter_append, map_append]
    rw [show [(epoch, e)].filter (fun p => decide (L.barrier ≤ p.1)) = [] from
      filter_cons_of_neg (by simpa using hdead)]
    rw [map_nil, append_nil]
    exact (sublist_cons_self _ _).subperm
  · exact (sublist_cons_self _ _).subperm
  · exact (sublist_cons_self _ _).subperm

theorem recorded_late {i : ℕ} (hget : L.range.inflight[i]? = some (epoch, e))
    (hlive : L.barrier ≤ epoch) (hlog : L'.range.log = L.range.log ++ [e])
    (hflight : L'.range.inflight = L.range.inflight.eraseIdx i) (hb : L.barrier ≤ L'.barrier) :
    (recorded L').Subperm (recorded L) := by
  obtain ⟨hi, hget⟩ := List.getElem?_eq_some_iff.mp hget
  have hperm := getElem_cons_eraseIdx_perm hi
  rw [hget] at hperm
  have hfilter := (hperm.filter fun p => decide (L.barrier ≤ p.1)).map fun p =>
    p.2.proposal.inserted
  rw [filter_cons_of_pos (by simpa using hlive), map_cons] at hfilter
  unfold recorded
  rw [hlog, hflight, map_append, append_assoc]
  refine (Sublist.append_left (Sublist.append_left ?_ _) _).subperm.trans
    (Perm.append_left _ hfilter).subperm
  exact flying_mono (Sublist.refl _) hb

theorem RowsOk.pending_nil (h : RowsOk u) (hins : inserting u = false)
    (hpc : ∀ b epoch after, u.pc ≠ .committing b epoch after) :
    insertKeys (pendingChanges u) = [] := by
  have hframe : ∀ f, u.pc.frame = some f → f.work.isInsert = false := by
    intro f hf
    unfold inserting at hins
    cases hp : u.pc <;> rw [hp] at hf hins <;> cases hf <;> exact hins
  unfold pendingChanges
  split
  · rename_i f hf
    exact h.work f (by rw [hf]; rfl) (hframe f (by rw [hf]; rfl))
  · rename_i f r hf
    exact h.work f (by rw [hf]; rfl) (hframe f (by rw [hf]; rfl))
  · rename_i f r hf
    exact h.work f (by rw [hf]; rfl) (hframe f (by rw [hf]; rfl))
  · rename_i b epoch after hb
    exact absurd hb (hpc b epoch after)
  · rfl

theorem claimed_returned {ok : Bool} (h : L.range.sess n s = u.returned b after ok) :
    claimed L (n, s) = [] := by
  unfold claimed
  rw [h]
  cases after <;> cases ok <;> simp only [Sess.returned] <;> try split_ifs
  all_goals rfl

/-- A session that is not called brings no row to the log that it could not bring before. -/
theorem claimed_step {i : NodeId × SessionId} (h : RowidInv L) (hq : Unhurried L (.on glob act))
    (hs : L.range.step glob act = some R) (hb : L.barrier ≤ barrier)
    (hi : ∀ a lag, act ≠ .call i.1 i.2 a lag) : claimed ⟨R, barrier⟩ i ⊆ claimed L i := by
  obtain ⟨n, s⟩ := i
  have hbecame := became_step hs n s
  generalize hu : R.sess n s = u at hbecame
  cases hbecame with
  | same =>
    by_cases hl : R.leader = some n
    · rcases leader_before hs hl with ⟨hold, -⟩ | ⟨rfl, -⟩
      · exact claimed_mono hu (fun _ => hold) hb
      · by_cases hcom : ∃ b epoch after, (L.range.sess n s).pc = .committing b epoch after
        · obtain ⟨b, epoch, after, hpc⟩ := hcom
          rw [claimed_committing hpc, claimed_committing (L := ⟨R, barrier⟩) (hu.symm ▸ hpc)]
          split_ifs with hnew hold hold
          · exact Subset.refl _
          · exact absurd ⟨hnew.1, hb.trans hnew.2⟩ hold
          · exact nil_subset _
          · exact nil_subset _
        · have hno : ∀ b epoch after, (L.range.sess n s).pc ≠ .committing b epoch after :=
            fun b epoch after hpc => hcom ⟨b, epoch, after, hpc⟩
          rw [claimed_of_not (L := ⟨R, barrier⟩) (hu.symm ▸ hno), if_pos hl, hu,
            (h.sess n s).rows.pending_nil (hq s) hno]
          exact nil_subset _
    · exact claimed_mono hu (fun hl' => absurd hl' hl) hb
  | new =>
    rw [claimed_of_not (L := ⟨R, barrier⟩) (hu.symm ▸ nofun), hu]
    simp [Sess.new, pendingChanges, insertKeys]
  | returned _ _ _ _ _ hact => exact absurd hact (hi _ _)
  | moved _ _ _ hact => exact absurd hact (hi _ _)

theorem shift_moved (h : RowidInv L) {v : View Row} {a : Act Row} (ha : ∀ ok, a ≠ .apply ok)
    (hmove : Move (L.range.env n glob)
      ((L.range.nodes n).view s (L.range.storeAt (L.range.nodes n).applied)) a v)
    (hself : L'.range.sess n s = v.self) (hseq' : (L'.range.nodes n).seq = v.seq)
    (hlead : L'.range.leader = L.range.leader) (hg : (recorded L').Subperm (recorded L))
    (hother : ∀ j, j ≠ (n, s) → claimed L' j ⊆ claimed L j) : Shift L L' := by
  have hold : claimed L (n, s) =
      if L.range.leader = some n then insertKeys (pendingChanges (L.range.sess n s)) else [] :=
    claimed_of_not fun b epoch after => Move.not_committing hmove ha
  -- what the session may still bring to the log is what it has pending, if its node leads
  have hnew : claimed L' (n, s) ⊆
      if L.range.leader = some n then insertKeys (pendingChanges v.self) else [] := by
    by_cases hcom : ∃ b epoch after, v.self.pc = .committing b epoch after
    · obtain ⟨b, epoch, after, hpc⟩ := hcom
      have hepoch := (Move.proposes hmove ha (h.sess n s).rows hpc).1
      rw [claimed_committing (hself ▸ hpc)]
      split_ifs with hlive hl
      · unfold pendingChanges
        rw [hpc]
        exact Subset.refl _
      · exact absurd (hepoch.trans (if_neg hl)) hlive.1
      · exact nil_subset _
      · exact nil_subset _
    · have hno : ∀ b epoch after, (L'.range.sess n s).pc ≠ .committing b epoch after :=
        fun b epoch after hpc => hcom ⟨b, epoch, after, hself ▸ hpc⟩
      rw [claimed_of_not hno, hlead, hself]
      exact Subset.refl _
  have hkeep : claimed L' (n, s) ⊆ claimed L (n, s) → Shift L L' := fun hsub =>
    .keep (subperm_nil_cons hg) fun j => by
      by_cases hj : j = (n, s)
      · exact hj ▸ hsub
      · exact hother j hj
  by_cases hl : L.range.leader = some n
  · rw [if_pos hl] at hnew hold
    rcases Move.pending_cases hmove ha (h.sess n s).rows with
      hsub | ⟨f, t, rows, hpc, hw, hseq, hcs⟩
    · exact hkeep (Subset.trans hnew (hold ▸ hsub))
    · refine .fresh n s hl ?_ hg hother fun k hk => ?_
      · unfold inserting
        rw [show (L.range.sess n s).pc = .scanning f from hpc]
        simp only [Pc.frame, any_some, hw]
        rfl
      · obtain ⟨rfl, hle, hlt⟩ := insertChanges_keys hcs (hnew hk)
        refine ⟨hle, fun kv => ⟨_, ?_, hlt⟩⟩
        rw [hseq', hseq, next_set, if_pos rfl, some_or]
  · rw [if_neg hl] at hnew
    exact hkeep (Subset.trans hnew (nil_subset _))

theorem shift_step {act : LeaderAct Row} (h : RowidInv L) (hq : Unhurried L act)
    (hstep : L.step act = some L') : Shift L L' := by
  cases Led.step_cases hstep with
  | reseed =>
    exact .keep (subperm_nil_cons (recorded_mono rfl (Sublist.refl _) le_rfl)) fun i =>
      claimed_mono (sess_setNode_same (by rfl) i.1 i.2) id le_rfl
  | on glob a R barrier hs happend hlead hbarrier =>
    have hb := (h.gate.barrier_step hbarrier).1
    have hother := fun i => claimed_step (i := i) h hq hs hb
    cases step_cases hs with
    | called n s a lag hcall =>
      replace hother : ∀ j, j ≠ (n, s) → claimed ⟨_, barrier⟩ j ⊆ claimed L j := fun j hj =>
        hother j fun a' lag' heq => hj (by cases heq; rfl)
      cases hcall with
      | appended b epoch after hpc hcan =>
        have hlive : L.barrier ≤ epoch := happend epoch (by
          simp only [appendEpoch, sess, hpc]
          rfl)
        refine .hand (n, s) ?_ (claimed_returned (returned_step hs hpc)) hother
        rw [claimed_committing hpc, if_pos ⟨(canAppend_iff.mp hcan).1, hlive⟩]
        exact recorded_append (e := L.range.entryOf n s b after) rfl rfl hb
      | refused b epoch after hpc =>
        obtain rfl : barrier = L.barrier := hbarrier.trans (Nat.max_zero _)
        refine .hand (n, s) ?_ (claimed_returned (returned_step hs hpc)) hother
        rw [claimed_committing hpc]
        exact recorded_keep L epoch (L.range.entryOf n s b after) rfl rfl rfl
      | moved a v ha hadm hmove =>
        refine shift_moved h ha hmove ?_ ?_ rfl (recorded_mono rfl (Sublist.refl _) hb) hother
        · exact (sess_moved _ _ _ _ _ _ _).trans (if_pos ⟨rfl, rfl⟩)
        · simp [movedNode, Node.set]
    | late i epoch e hget =>
      have hlive : L.barrier ≤ epoch := happend epoch (by
        simp only [appendEpoch, hget]
        rfl)
      exact .keep (subperm_nil_cons (recorded_late hget hlive rfl rfl hb)) fun i =>
        hother i (by simp)
    | crash n =>
      refine .keep (subperm_nil_cons (recorded_mono (L.range.log_crash n) ?_ hb)) fun i =>
        hother i (by simp)
      exact (L.range.inflight_crash n).symm ▸ Sublist.refl _
    | settle =>
      exact .keep (subperm_nil_cons (recorded_mono rfl filter_sublist hb)) fun i =>
        hother i (by simp)
    | advanced n term newLo =>
      exact .keep (recorded_append (e := ⟨.scanLo newLo, none⟩) rfl rfl hb) fun i =>
        hother i (by simp)
    | refused n term newLo =>
      obtain rfl : barrier = L.barrier := hbarrier.trans (Nat.max_zero _)
      refine .keep ((recorded_keep L (L.range.epochOf n) ⟨.scanLo newLo, none⟩ ?_ ?_ ?_).trans ?_)
        fun i => hother i (by simp)
      · rfl
      · rfl
      · rfl
      · rw [show (⟨.scanLo newLo, none⟩ : LogEntry Row).proposal.inserted = [] from rfl, ite_self]
    | elect =>
      exact .keep (subperm_nil_cons (recorded_mono rfl (Sublist.refl _) hb)) fun i =>
        hother i (by simp)
    | tended act n node hpa hsess hintent htends =>
      refine .keep (subperm_nil_cons (recorded_mono rfl (Sublist.refl _) hb)) fun i =>
        hother i fun a lag heq => ?_
      subst heq
      cases htends

theorem Shift.exclusive (hsh : Shift L L') (h : RowidInv L) :
    Exclusive (recorded L') (claimed L') := by
  cases hsh with
  | keep hg hc => exact h.exclusive.nil_cons.shrink hg hc
  | hand i hg hown hc => exact h.exclusive.hand i hg hown hc
  | fresh n s hlead hins hg hc hnew =>
    refine (h.exclusive.claim (n, s) (fun k hk hused => ?_) hc).shrink hg
      fun _ => Subset.refl _
    have hseed := ((h.sess n s).gated hins hlead).1
    exact absurd (h.behind n hlead hseed k hused).lt_current (not_lt.mpr (hnew k hk).1)

theorem Shift.used (hsh : Shift L L') (hk : Used (recorded L') (claimed L') k) :
    Used (recorded L) (claimed L) k ∨
      ∃ n, L.range.leader = some n ∧ ∀ kv : Store Row, Behind (L'.range.nodes n).seq kv k := by
  cases hsh with
  | keep hg hc =>
    refine .inl (hk.mono (fun g hmem k' hk' => ?_) fun i k' hk' => .inr ⟨i, hc i hk'⟩)
    rcases mem_cons.mp (hg.subset hmem) with rfl | hmem
    · cases hk'
    · exact .inl ⟨g, hmem, hk'⟩
  | hand i hg hown hc =>
    refine .inl (hk.mono (fun g hmem k' hk' => ?_) fun j k' hk' => ?_)
    · rcases mem_cons.mp (hg.subset hmem) with rfl | hmem
      · exact .inr ⟨i, hk'⟩
      · exact .inl ⟨g, hmem, hk'⟩
    · by_cases hj : j = i
      · rw [hj, hown] at hk'
        cases hk'
      · exact .inr ⟨j, hc j hj hk'⟩
  | fresh n s hlead hins hg hc hnew =>
    rcases hk with ⟨g, hmem, hk⟩ | ⟨j, hk⟩
    · exact .inl (.inl ⟨g, hg.subset hmem, hk⟩)
    · by_cases hj : j = (n, s)
      · subst hj
        exact .inr ⟨n, hlead, (hnew k hk).2⟩
      · exact .inl (.inr ⟨j, hc j hj hk⟩)

theorem RowidInv.flight_step (h : RowidInv L) (hs : L.range.step glob act = some L'.range)
    (ht : (∃ n, L' = ⟨L.range.elect n, L.barrier⟩) ∨ Tenure L L') {p : ℕ × LogEntry Row}
    (hp : p ∈ L'.range.inflight) : (∀ b, p.2.proposal = .batch b → Covers b.changes b.seqOps) ∧
      (p.2.proposal.inserted ≠ [] → Dated L' p.1) := by
  rcases inflight_step hs hp with hp | ⟨n, s, b, after, lag, hact, hpc, hcan, he⟩ |
    ⟨n, term, lo, -, -, -, rfl⟩
  · exact ⟨(h.flight p hp).1, fun hins => ((h.flight p hp).2 hins).step ht⟩
  · refine ⟨fun b' hb' => ?_, fun hins => ?_⟩
    · rw [he] at hb'
      cases hb'
      exact (h.sess n s).rows.batch b _ after hpc
    · rw [he] at hins
      exact ((h.sess n s).dated b _ after hpc (canAppend_iff.mp hcan).1 hins).1.step ht
  · exact ⟨fun b hb => (by cases hb), fun hins => absurd rfl hins⟩

theorem RowidInv.appended_covers (h : RowidInv L) (ha : Appended L.range act e)
    (hb : e.proposal = .batch b) : Covers b.changes b.seqOps := by
  cases ha with
  | session n s b' epoch after lag hpc =>
    cases hb
    exact (h.sess n s).rows.batch b epoch after hpc
  | flight i epoch e hget => exact (h.flight _ (mem_of_getElem? hget)).1 b hb
  | watermark => cases hb

theorem RowidInv.logged_step (h : RowidInv L) (hs : L.range.step glob act = some R)
    (he : e ∈ R.log) (hk : k ∈ e.proposal.inserted) : Behind .new R.tip k := by
  rcases log_step hs with hlog | ⟨e', happ, hlog⟩
  · have htip : R.tip = L.range.tip := by
      unfold tip
      rw [hlog]
    rw [htip]
    exact h.logged e (hlog ▸ he) k hk
  · have htip : R.tip = applyBatch L.range.tip e'.proposal.ops := by
      simp [tip, hlog]
    rw [htip]
    rw [hlog] at he
    rcases mem_append.mp he with he | he
    · exact (h.logged e he k hk).applyBatch _
    · rw [mem_singleton] at he
      subst he
      cases hp : e.proposal with
      | scanLo =>
        rw [hp] at hk
        cases hk
      | batch b =>
        rw [hp] at hk
        obtain ⟨c, hc, hlt⟩ := h.appended_covers happ hp k hk
        refine behind_new_iff.mpr (counters_seq_applyBatch _ (.inr ⟨c, ?_, hlt⟩))
        change _ ∈ b.seqOps ++ b.rowOps ++ b.clogOps ++ b.nextXidOps
        simp [hc]

/-- Once the barrier has reached the term, a rowid in use is in the log, or it was taken behind the
open gate of the leader: by a batch in flight, or by a session of its own. -/
theorem RowidInv.used_cases (h : RowidInv L) (hl : L.range.leader = some n)
    (hb : L.range.term ≤ barrier)
    (hk : Used (recorded ⟨L.range, barrier⟩) (claimed ⟨L.range, barrier⟩) k) :
    Behind .new L.range.tip k ∨ (L.range.nodes n).served = L.range.term ∧
      ((∃ p ∈ L.range.inflight, k ∈ p.2.proposal.inserted) ∨
        ∃ s, k ∈ insertKeys (pendingChanges (L.range.sess n s))) := by
  rcases hk with ⟨g, hmem, hk⟩ | ⟨⟨m, s⟩, hk⟩
  · rcases mem_append.mp hmem with hmem | hmem
    · obtain ⟨e, he, rfl⟩ := mem_map.mp hmem
      exact .inl (h.logged e he k hk)
    · obtain ⟨p, hp, rfl⟩ := mem_map.mp hmem
      obtain ⟨hp, hlive⟩ := mem_filter.mp hp
      have hdated := (h.flight p hp).2 (ne_nil_of_mem hk)
      have hterm := le_antisymm hdated.1 (hb.trans (of_decide_eq_true hlive))
      exact .inr ⟨hdated.2 hterm n hl, .inl ⟨p, hp, hk⟩⟩
  · by_cases hcom : ∃ b epoch after, (L.range.sess m s).pc = .committing b epoch after
    · obtain ⟨b, epoch, after, hpc⟩ := hcom
      rw [claimed_committing (L := ⟨L.range, barrier⟩) hpc] at hk
      split_ifs at hk with hlive
      · obtain ⟨hdated, hown⟩ := (h.sess m s).dated b epoch after hpc hlive.1 (ne_nil_of_mem hk)
        have hterm := le_antisymm hdated.1 (hb.trans hlive.2)
        obtain rfl := hown hterm n hl
        refine .inr ⟨hdated.2 hterm n hl, .inr ⟨s, ?_⟩⟩
        unfold pendingChanges
        rwa [hpc]
      · cases hk
    · have hno : ∀ b epoch after, (L.range.sess m s).pc ≠ .committing b epoch after :=
        fun b epoch after hpc => hcom ⟨b, epoch, after, hpc⟩
      rw [claimed_of_not (L := ⟨L.range, barrier⟩) hno] at hk
      split_ifs at hk with hm
      · cases hl.symm.trans hm
        refine .inr ⟨((h.sess n s).gated ?_ hl).2, .inr ⟨s, hk⟩⟩
        by_contra hins
        rw [(h.sess n s).rows.pending_nil (Bool.not_eq_true _ ▸ hins) hno] at hk
        cases hk
      · cases hk

theorem seeded_of_step (h : R.step glob act = some R') (hsettle : ¬ ∃ m, act = .settle m)
    (hseed : R'.seeded = true) : R.seeded = true := by
  cases step_cases h with
  | called n s a lag hcall => cases hcall <;> exact hseed
  | elect => cases hseed
  | crash n => exact R.seeded_crash n hseed
  | settle n => exact absurd ⟨n, rfl⟩ hsettle
  | _ => exact hseed

theorem RowidInv.behind_on (h : RowidInv L) (hsh : Shift L ⟨R, barrier⟩)
    (hs : L.range.step glob act = some R) (ht : Tenure L ⟨R, barrier⟩)
    (hbarrier : barrier = if (L.range.awaitsBarrier act).isSome then L.range.term else
      max L.barrier ((L.range.appendEpoch act).getD 0))
    (hlead : R.leader = some n) (hseed : R.seeded = true)
    (hk : Used (recorded ⟨R, barrier⟩) (claimed ⟨R, barrier⟩) k) :
    Behind (R.nodes n).seq (R.storeAt (R.nodes n).applied) k := by
  have hl : L.range.leader = some n := ht.leader n hlead
  by_cases hsettle : ∃ m, act = .settle m
  · obtain ⟨m, rfl⟩ := hsettle
    cases step_cases hs with
    | settle m hlm hserved =>
      obtain rfl : m = n := Option.some.inj (hlm.symm.trans hl)
      change Behind ((L.range.setNode m (L.range.settledNode m)).nodes m).seq
        (L.range.storeAt ((L.range.setNode m (L.range.settledNode m)).nodes m).applied) k
      rw [nodes_setNode, if_pos rfl]
      change Behind .new (L.range.storeAt L.range.log.length) k
      rw [storeAt_length]
      have hused : Used (recorded ⟨L.range, barrier⟩) (claimed ⟨L.range, barrier⟩) k := by
        refine hk.mono (fun g hg k' hk' => .inl ⟨g, ?_, hk'⟩) fun i k' hk' => .inr ⟨i, ?_⟩
        · refine Subperm.subset (recorded_mono ?_ ?_ ?_) hg
          exacts [rfl, filter_sublist, le_rfl]
        · refine claimed_mono ?_ ?_ ?_ hk'
          exacts [sess_setNode_same (R := L.range) (by rfl) i.1 i.2, id, le_rfl]
      rcases h.used_cases hl hbarrier.ge hused with hold | ⟨hopen, -⟩
      · exact hold
      · exact absurd hopen hserved
    | tended _ m' node hpa hsess hintent htends => cases htends
  · have hseed' : L.range.seeded = true := seeded_of_step hs hsettle hseed
    rcases hsh.used hk with hused | ⟨m, hm, hnew⟩
    · refine behind_step hs (fun hact => hsettle ⟨n, hact⟩) ?_ (h.behind n hl hseed' k hused)
      rintro rfl
      cases hs
      exact absurd rfl (L.range.leader_crash n hlead).2
    · obtain rfl : m = n := Option.some.inj (hm.symm.trans hl)
      exact hnew _

theorem rowidInv_step {act : LeaderAct Row} (h : RowidInv L) (hq : Unhurried L act)
    (hstep : L.step act = some L') : RowidInv L' := by
  have hsh := shift_step h hq hstep
  have hgate := gateInv_step h.gate hstep
  have hten := h.gate.tenure hstep
  cases Led.step_cases hstep with
  | reseed n =>
    rcases hten with ⟨glob, m, hact, -⟩ | hten
    · cases hact
    have hsess : ∀ m s, (L.range.reseed n).sess m s = L.range.sess m s := fun m s =>
      sess_setNode_same (by rfl) m s
    refine ⟨hgate, hsh.exclusive h, ?_, h.logged, ?_, ?_⟩
    · intro m hlead hseed k hk
      have hused : Used (recorded L) (claimed L) k := by
        rcases hk with hk | ⟨i, hk⟩
        · exact .inl hk
        · refine .inr ⟨i, claimed_mono ?_ ?_ ?_ hk⟩
          · exact hsess i.1 i.2
          · exact fun hl => hl
          · exact le_rfl
      change Behind ((L.range.reseed n).nodes m).seq
        (L.range.storeAt ((L.range.reseed n).nodes m).applied) k
      unfold reseed
      rw [nodes_setNode]
      split_ifs with hm
      · subst hm
        obtain ⟨happlied, hpending, hflight⟩ := hq hlead hseed
        change Behind .new (L.range.storeAt (L.range.nodes m).applied) k
        rw [happlied, storeAt_length]
        rcases h.used_cases hlead (h.gate.seeded hseed).ge hused with
          hold | ⟨-, ⟨p, hp, hk⟩ | ⟨s, hk⟩⟩
        · exact hold
        · simp [hflight p hp] at hk
        · simp [hpending s] at hk
      · exact h.behind m hlead hseed k hused
    · exact fun m s => (h.sess m s).same (hsess m s) (.inr hten)
    · exact fun p hp => ⟨(h.flight p hp).1, fun hins => ((h.flight p hp).2 hins).step (.inr hten)⟩
  | on glob a R barrier hs happend hlead hbarrier =>
    have hlog : ∀ e ∈ R.log, ∀ k ∈ e.proposal.inserted, Behind .new R.tip k :=
      fun e he k hk => h.logged_step hs he hk
    rcases hten with ⟨glob', n, hact, hL'⟩ | hten
    · cases hact
      refine ⟨hgate, hsh.exclusive h, ?_, hlog, ?_, ?_⟩
      · rw [hL']
        intro m _ hseed
        cases hseed
      · intro m s
        refine (h.sess m s).same ?_ (.inl ⟨n, hL', hq⟩)
        rw [hL']
        rfl
      · exact fun p hp => h.flight_step hs (.inl ⟨n, hL'⟩) hp
    · refine ⟨hgate, hsh.exclusive h, ?_, hlog, ?_, ?_⟩
      · intro n hl hseed k hk
        exact h.behind_on hsh hs hten hbarrier hl hseed hk
      · exact fun m s => (h.sess m s).became (became_step hs m s) hten
      · exact fun p hp => h.flight_step hs (.inr hten) hp

theorem rowidInv_exec {L : Led Row} {acts : List (LeaderAct Row)}
    (hq : Runs.Along Led.step Unhurried Led.initial acts)
    (h : exec Led.step Led.initial acts = some L) : RowidInv L :=
  exec_invariant (fun _ _ _ hI hact hs => rowidInv_step hI hact hs) rowidInv_initial hq h

/-- Two entries of the log never create the same row, if a node is elected with no INSERT left
under way and the cache of a leader is cleared only in a quiet moment. -/
theorem rowids_never_shared (acts : List (LeaderAct Row)) (L : Led Row)
    (hq : Runs.Along Led.step Unhurried Led.initial acts)
    (h : exec Led.step Led.initial acts = some L) :
    ∀ (i j : ℕ) (e e' : LogEntry Row), i ≠ j → L.range.log[i]? = some e →
      L.range.log[j]? = some e' → ∀ k ∈ e.proposal.inserted, k ∉ e'.proposal.inserted := by
  intro i j e e' hij hi hj k hk hk'
  have hapart := (pairwise_append.mp (rowidInv_exec hq h).exclusive.apart).1
  rw [pairwise_map, pairwise_iff_getElem] at hapart
  obtain ⟨hil, rfl⟩ := List.getElem?_eq_some_iff.mp hi
  obtain ⟨hjl, rfl⟩ := List.getElem?_eq_some_iff.mp hj
  rcases Nat.lt_or_gt_of_ne hij with hlt | hlt
  · exact hapart i j hil hjl hlt hk hk'
  · exact hapart j i hjl hil hlt hk' hk

end Steps

section Runs

/-- Session 0 takes a rowid, the task that watches for a rise to leadership clears the cache, and
session 1 takes a rowid; both commit. -/
def reseedBetween : List (LeaderAct ℕ) :=
  onLeader (openGate 0 false ++ calls 0 0 [.start insertOne, .takeSnapshot, .scan]) ++
    [.reseed 0] ++
    onLeader (calls 0 1 [.start insertOne, .takeSnapshot, .scan, .propose, .apply true] ++
      calls 0 0 [.propose, .apply true])

def reseedBefore : List (LeaderAct ℕ) :=
  [.reseed 0] ++ onLeader ((openGate 0 false).tail ++
    calls 0 0 [.start insertOne, .takeSnapshot, .scan] ++
    calls 0 1 [.start insertOne, .takeSnapshot, .scan, .propose, .apply true] ++
    calls 0 0 [.propose, .apply true])

def unhurriedCheck (L : Led ℕ) : LeaderAct ℕ → Bool
  | .on _ (.elect _) => false
  | .reseed n => !(decide (L.range.leader = some n) && L.range.seeded)
  | _ => true

theorem unhurried_of_check {L : Led ℕ} {act : LeaderAct ℕ} (h : unhurriedCheck L act = true) :
    Unhurried L act := by
  cases act with
  | reseed =>
    intro hlead hseed
    simp [unhurriedCheck, hlead, hseed] at h
  | on glob a =>
    cases a with
    | elect => cases h
    | _ => trivial

end Runs

/-- Both batches create row 1 of the table. -/
theorem rowid_handed_out_twice :
    ∃ L : Led ℕ, exec Led.step Led.initial reseedBetween = some L ∧
      L.range.log.map (fun e => e.proposal.inserted) = [[(1, 1)], [(1, 1)]] ∧
      L.range.tip.version (1, 1) 1 = some ⟨1, invalidXid, 1⟩ ∧
      L.range.tip.version (1, 1) 2 = some ⟨2, invalidXid, 1⟩ :=
  exists_some (by decide)

/-- The first entry creates row 1, and no row of it is created again. -/
theorem rowids_never_shared_two_inserts :
    ∃ L : Led ℕ, exec Led.step Led.initial (onLeader [.elect 0] ++ reseedBefore) = some L ∧
      L.range.log.map (fun e => e.proposal.inserted) = [[(1, 2)], [(1, 1)]] ∧
      ∀ e e', L.range.log[0]? = some e → L.range.log[1]? = some e' →
        ∀ k ∈ e.proposal.inserted, k ∉ e'.proposal.inserted := by
  obtain ⟨L, hL, hrows⟩ : ∃ L ∈ exec Led.step Led.initial (onLeader [.elect 0] ++ reseedBefore),
      L.range.log.map (fun e => e.proposal.inserted) = [[(1, 2)], [(1, 1)]] := by decide
  have hq : Runs.Along Led.step Unhurried (Led.initial : Led ℕ)
      (onLeader [.elect 0] ++ reseedBefore) := by
    refine ⟨fun s => rfl, fun L hL => ?_⟩
    cases hL
    exact along_of_check unhurriedCheck (fun _ _ => unhurried_of_check) (by decide)
  refine ⟨L, hL, hrows, fun e e' he he' => ?_⟩
  exact rowids_never_shared _ L hq hL 0 1 e e' Nat.zero_ne_one he he'

end Crabgresql.Cluster
