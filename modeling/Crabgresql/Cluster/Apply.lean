import Crabgresql.Cluster.Bounds

/-!
# What applying a batch does to a replicated store

The xids a store names, the durable xid counter and the commit log, after one
operation, after a list of operations and after a session's batch.
-/

namespace Crabgresql.Cluster

open Std (ExtTreeMap)
open Mvcc Kv Procarray Exec Session List ProcArray

variable {Row : Type}
variable {op : WriteOp Row} {x : Xid}

def Names (kv : Store Row) (x : Xid) : Prop :=
  kv.clog[x]? ≠ none ∨ ∃ k, kv.version k x ≠ none

def Formed (kv : Store Row) : Prop := ∀ k x t, kv.version k x = some t → t.xmin = x

def opName : WriteOp Row → Option Xid
  | .version k _ => some k.xid
  | .clog x _ => some x
  | .counter _ _ => none

def FormedOp : WriteOp Row → Prop
  | .version k t => t.xmin = k.xid
  | _ => True

def RowOp : WriteOp Row → Prop
  | .version _ _ => True
  | .clog _ _ => False
  | .counter k _ => k ≠ .nextXid

/-- The entry a put leaves in the write-once log. -/
def keepTerminal (old new : XidStatus) : XidStatus := if old.isTerminal then old else new

theorem versionKey_eta (k : VersionKey) : versionKey k.rowKey k.xid = k := rfl

section Op

variable (kv : Store Row)

theorem version_applyOp (op : WriteOp Row) (k : RowKey) (x : Xid) : (applyOp kv op).version k x =
      match op with
      | .version key t => if key.rowKey = k ∧ key.xid = x then some t else kv.version k x
      | _ => kv.version k x := by
  cases op with
  | version key t =>
    change (kv.setVersion key t).version k x = _
    rw [← versionKey_eta key, version_setVersion]
    rfl
  | clog | counter =>
    simp only [applyOp]
    split_ifs <;> rfl

theorem clogGet_applyOp (op : WriteOp Row) (x : Xid) : (applyOp kv op).clogGet x =
      match op with
      | .clog y st => if y = x then keepTerminal (kv.clogGet x) st else kv.clogGet x
      | _ => kv.clogGet x := by
  cases op with
  | version => rfl
  | clog y =>
    simp only [applyOp, keepTerminal]
    by_cases hy : y = x
    · subst hy
      by_cases ht : (kv.clogGet y).isTerminal <;> simp [ht]
    · by_cases ht : (kv.clogGet y).isTerminal <;> simp [ht, hy]
  | counter =>
    simp only [applyOp]
    split_ifs <;> rfl

theorem durableNext_applyOp (op : WriteOp Row) : durableNext (applyOp kv op) =
      match op with
      | .counter .nextXid n => max (durableNext kv) n
      | _ => durableNext kv := by
  cases op with
  | version => rfl
  | clog =>
    simp only [applyOp]
    split_ifs <;> rfl
  | counter key n =>
    cases key with
    | nextXid =>
      simp only [applyOp, isCounterKey, if_true, durableNext, counters_setCounter,
        Option.getD_some]
      cases kv.counters .nextXid with
      | none => simp [max_comm]
      | some m => exact max_right_comm m n 1
    | _ => simp [applyOp, isCounterKey, durableNext]

variable {kv}

theorem clog_applyOp_ne_none (op : WriteOp Row) (x : Xid) :
    (applyOp kv op).clog[x]? ≠ none ↔ kv.clog[x]? ≠ none ∨ ∃ st, op = .clog x st := by
  cases op with
  | version => simp [applyOp, Store.setVersion]
  | counter =>
    simp only [applyOp]
    split_ifs <;> simp [Store.setCounter]
  | clog y =>
    simp only [applyOp]
    by_cases ht : (kv.clogGet y).isTerminal
    · rw [if_pos ht]
      have hy : kv.clog[y]? ≠ none := by
        intro hnone
        simp [Store.clogGet, hnone, XidStatus.isTerminal] at ht
      constructor
      · exact .inl
      · rintro (h | ⟨st', h⟩)
        · exact h
        · cases h
          exact hy
    · rw [if_neg ht]
      simp only [Store.setClog, ExtTreeMap.getElem?_insert, Std.compare_eq_iff_eq]
      by_cases hy : y = x
      · subst hy
        simp
      · simp [hy]

theorem names_applyOp (op : WriteOp Row) (x : Xid) :
    Names (applyOp kv op) x ↔ Names kv x ∨ opName op = some x := by
  unfold Names
  rw [clog_applyOp_ne_none]
  cases op with
  | version key =>
    simp only [version_applyOp, reduceCtorEq, exists_false, or_false, opName, Option.some.injEq]
    constructor
    · rintro (h | ⟨k, hk⟩)
      · exact .inl (.inl h)
      · split_ifs at hk with hkey
        · exact .inr hkey.2
        · exact .inl (.inr ⟨k, hk⟩)
    · rintro ((h | ⟨k, hk⟩) | h)
      · exact .inl h
      · refine .inr ⟨k, ?_⟩
        split_ifs
        · simp
        · exact hk
      · exact .inr ⟨key.rowKey, by simp [h]⟩
  | clog y st =>
    simp only [version_applyOp, opName, Option.some.injEq, WriteOp.clog.injEq]
    constructor
    · rintro ((h | ⟨st', h, -⟩) | h)
      · exact .inl (.inl h)
      · exact .inr h
      · exact .inl (.inr h)
    · rintro ((h | h) | h)
      · exact .inl (.inl h)
      · exact .inr h
      · exact .inl (.inr ⟨st, h, rfl⟩)
  | counter => simp [version_applyOp, opName]

theorem formed_applyOp (hop : FormedOp op) (h : Formed kv) : Formed (applyOp kv op) := by
  intro k x t ht
  rw [version_applyOp] at ht
  cases op with
  | version =>
    simp only at ht
    split_ifs at ht with hkey
    · cases ht
      rw [← hkey.2]
      exact hop
    · exact h k x t ht
  | clog | counter => exact h k x t ht

end Op

section Ops

variable {kv : Store Row}

theorem applyBatch_cons (op : WriteOp Row) (ops : List (WriteOp Row)) :
    applyBatch kv (op :: ops) = applyBatch (applyOp kv op) ops := rfl

theorem names_applyBatch (ops : List (WriteOp Row)) (x : Xid) :
    Names (applyBatch kv ops) x ↔ Names kv x ∨ ∃ op ∈ ops, opName op = some x := by
  induction ops generalizing kv with
  | nil => simp
  | cons op ops ih =>
    rw [applyBatch_cons, ih, names_applyOp]
    simp only [mem_cons, exists_eq_or_imp]
    rw [or_assoc]

theorem formed_applyBatch {ops : List (WriteOp Row)} (hops : ∀ op ∈ ops, FormedOp op)
    (h : Formed kv) : Formed (applyBatch kv ops) := by
  induction ops generalizing kv with
  | nil => exact h
  | cons op ops ih =>
    rw [applyBatch_cons]
    exact ih (fun o ho => hops o (mem_cons_of_mem _ ho))
      (formed_applyOp (hops op mem_cons_self) h)

theorem durableNext_le_applyBatch (ops : List (WriteOp Row)) :
    durableNext kv ≤ durableNext (applyBatch kv ops) := by
  induction ops generalizing kv with
  | nil => exact le_rfl
  | cons op ops ih =>
    rw [applyBatch_cons]
    refine le_trans ?_ ih
    rw [durableNext_applyOp]
    split
    · exact le_max_left _ _
    · exact le_rfl

theorem clogGet_applyBatch_terminal (h : (kv.clogGet x).isTerminal = true)
    (ops : List (WriteOp Row)) : (applyBatch kv ops).clogGet x = kv.clogGet x := by
  induction ops generalizing kv with
  | nil => rfl
  | cons op ops ih =>
    have hop : (applyOp kv op).clogGet x = kv.clogGet x := by
      rw [clogGet_applyOp]
      split
      · split_ifs
        · simp [keepTerminal, h]
        · rfl
      · rfl
    rw [applyBatch_cons, ih (by rw [hop]; exact h), hop]

theorem version_applyBatch (kv : Store Row) (ops : List (WriteOp Row)) (k : RowKey) (y : Xid) :
    (applyBatch kv ops).version k y = kv.version k y ∨
      ∃ t, (applyBatch kv ops).version k y = some t ∧ .version (versionKey k y) t ∈ ops := by
  induction ops generalizing kv with
  | nil => exact .inl rfl
  | cons op ops ih =>
    rw [applyBatch_cons]
    rcases ih (applyOp kv op) with hsame | ⟨t, ht, hmem⟩
    · rw [hsame, version_applyOp]
      cases op with
      | version key t =>
        simp only
        split_ifs with hkey
        · refine .inr ⟨t, rfl, mem_cons.mpr (.inl ?_)⟩
          rw [← hkey.1, ← hkey.2, versionKey_eta]
        · exact .inl rfl
      | clog | counter => exact .inl rfl
    · exact .inr ⟨t, ht, mem_cons_of_mem _ hmem⟩

theorem rowOps_applyBatch {ops : List (WriteOp Row)} (h : ∀ op ∈ ops, RowOp op) :
    (∀ x, (applyBatch kv ops).clogGet x = kv.clogGet x) ∧
      durableNext (applyBatch kv ops) = durableNext kv := by
  induction ops generalizing kv with
  | nil => exact ⟨fun _ => rfl, rfl⟩
  | cons op ops ih =>
    obtain ⟨hclog, hnext⟩ := @ih (applyOp kv op) fun o ho => h o (mem_cons_of_mem _ ho)
    have hop := h op mem_cons_self
    rw [applyBatch_cons, hnext, durableNext_applyOp]
    refine ⟨fun x => ?_, ?_⟩
    · rw [hclog, clogGet_applyOp]
      cases op with
      | version | counter => rfl
      | clog => cases hop
    · cases op with
      | version => rfl
      | clog => cases hop
      | counter key =>
        cases key with
        | nextXid => exact absurd rfl hop
        | _ => rfl

end Ops

section Batch

variable {kv : Store Row} {b : Batch Row}

theorem mem_changeOps {c : Change Row} (h : op ∈ c.rowOps x) :
    ∃ k y t, op = .version (versionKey k y) t ∧ t.xmin = y ∧ (y = x ∨ target c = some y) := by
  cases c with
  | insert k =>
    rw [Change.rowOps, mem_singleton] at h
    exact ⟨k, x, _, h, rfl, .inl rfl⟩
  | update k curXmin =>
    simp only [Change.rowOps] at h
    split_ifs at h
    · rw [mem_singleton] at h
      exact ⟨k, x, _, h, rfl, .inl rfl⟩
    · rcases mem_cons.mp h with h | h
      · exact ⟨k, curXmin, _, h, rfl, .inr rfl⟩
      · rw [mem_singleton] at h
        exact ⟨k, x, _, h, rfl, .inl rfl⟩
  | delete k curXmin =>
    rw [Change.rowOps, mem_singleton] at h
    exact ⟨k, curXmin, _, h, rfl, .inr rfl⟩

theorem mem_rowPart (hseq : SeqOnly b.seqOps) (h : op ∈ b.seqOps ++ b.rowOps) :
    RowOp op ∧ FormedOp op ∧
      ∀ y, opName op = some y → y = b.xid ∨ ∃ c ∈ b.changes, target c = some y := by
  rcases mem_append.mp h with h | h
  · obtain ⟨t, n, rfl⟩ := hseq op h
    exact ⟨by simp [RowOp], trivial, fun y hy => by cases hy⟩
  · obtain ⟨c, hc, hop⟩ := mem_flatMap.mp h
    obtain ⟨k, y, t, rfl, hxmin, hy⟩ := mem_changeOps hop
    refine ⟨trivial, hxmin, fun z hz => ?_⟩
    cases hz
    rcases hy with hy | hy
    · exact .inl hy
    · exact .inr ⟨c, hc, hy⟩

theorem ops_eq (b : Batch Row) : b.ops = (b.seqOps ++ b.rowOps) ++ (b.clogOps ++ b.nextXidOps) := by
  simp [Batch.ops]

theorem clogGet_applyBatch_ops (hseq : SeqOnly b.seqOps) (x : Xid) :
    (applyBatch kv b.ops).clogGet x =
      match b.outcome with
      | some st => if b.xid = x then keepTerminal (kv.clogGet x) st else kv.clogGet x
      | none => kv.clogGet x := by
  obtain ⟨hclog, -⟩ := @rowOps_applyBatch _ kv _ fun op hop => (mem_rowPart hseq hop).1
  rw [ops_eq, applyBatch_append, applyBatch_append]
  have hnext : ∀ kv' : Store Row, (applyBatch kv' b.nextXidOps).clogGet x = kv'.clogGet x := by
    intro kv'
    unfold Batch.nextXidOps
    cases b.nextXid with
    | none => rfl
    | some n => exact clogGet_applyOp kv' (.counter .nextXid n) x
  rw [hnext]
  unfold Batch.clogOps
  cases b.outcome with
  | none => exact hclog x
  | some st =>
    refine (clogGet_applyOp _ (.clog b.xid st) x).trans ?_
    simp only [hclog]

theorem durableNext_applyBatch_ops (hseq : SeqOnly b.seqOps) : durableNext (applyBatch kv b.ops) =
      max (durableNext kv) (b.nextXid.getD 0) := by
  obtain ⟨-, hrow⟩ := @rowOps_applyBatch _ kv _ fun op hop => (mem_rowPart hseq hop).1
  rw [ops_eq, applyBatch_append, applyBatch_append]
  have hclog : ∀ kv' : Store Row,
      durableNext (applyBatch kv' b.clogOps) = durableNext kv' := by
    intro kv'
    unfold Batch.clogOps
    cases b.outcome with
    | none => rfl
    | some st => exact durableNext_applyOp kv' (.clog b.xid st)
  unfold Batch.nextXidOps
  cases b.nextXid with
  | none =>
    rw [applyBatch_nil, hclog, hrow]
    simp
  | some n =>
    refine (durableNext_applyOp _ (.counter .nextXid n)).trans ?_
    simp only [hclog, hrow, Option.getD_some]

theorem formedOp_ops (hseq : SeqOnly b.seqOps) : ∀ op ∈ b.ops, FormedOp op := by
  intro op hop
  rw [ops_eq] at hop
  rcases mem_append.mp hop with hop | hop
  · exact (mem_rowPart hseq hop).2.1
  · rcases mem_append.mp hop with hop | hop
    · unfold Batch.clogOps at hop
      split at hop
      · obtain rfl := mem_singleton.mp hop
        trivial
      · cases hop
    · unfold Batch.nextXidOps at hop
      split at hop
      · obtain rfl := mem_singleton.mp hop
        trivial
      · cases hop

theorem version_mem_ops (hseq : SeqOnly b.seqOps) {key : VersionKey} {t : Tuple Row}
    (h : .version key t ∈ b.ops) : ∃ c ∈ b.changes, .version key t ∈ c.rowOps b.xid := by
  rw [ops_eq] at h
  rcases mem_append.mp h with h | h
  · rcases mem_append.mp h with h | h
    · obtain ⟨t', n, heq⟩ := hseq _ h
      cases heq
    · exact mem_flatMap.mp h
  · rcases mem_append.mp h with h | h
    · unfold Batch.clogOps at h
      split at h
      · cases mem_singleton.mp h
      · cases h
    · unfold Batch.nextXidOps at h
      split at h
      · cases mem_singleton.mp h
      · cases h

theorem names_ops (hseq : SeqOnly b.seqOps) (h : Names (applyBatch kv b.ops) x) :
    Names kv x ∨ x = b.xid ∨ ∃ c ∈ b.changes, target c = some x := by
  rw [names_applyBatch] at h
  rcases h with h | ⟨op, hop, hx⟩
  · exact .inl h
  · refine .inr ?_
    rw [ops_eq] at hop
    rcases mem_append.mp hop with hop | hop
    · exact (mem_rowPart hseq hop).2.2 x hx
    · rcases mem_append.mp hop with hop | hop
      · unfold Batch.clogOps at hop
        split at hop
        · obtain rfl := mem_singleton.mp hop
          cases hx
          exact .inl rfl
        · cases hop
      · unfold Batch.nextXidOps at hop
        split at hop
        · obtain rfl := mem_singleton.mp hop
          cases hx
        · cases hop

end Batch

end Crabgresql.Cluster
