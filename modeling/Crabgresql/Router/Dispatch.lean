import Crabgresql.Catalog.Tables
import Crabgresql.Router.System

/-!
# Where DDL goes

The routers of a cluster and the stores of its ranges. A statement's range comes
from range 0's catalog; DDL names no range and runs on the session the pin gives:
range 0's, or that of the range the block is pinned to, which writes the catalog
records to that range's own store. A statement for a range this node does not lead
is forwarded, and arrives at the other node's router as any statement does.
-/

namespace Crabgresql.Dispatch

open Mvcc Replica Catalog List Runs
open Cluster (RangeId)
open Router (Pin)

abbrev RouterId := ℕ

inductive Stmt
  | begin
  | commit
  | rollback
  | ddl (d : Ddl)
  /-- INSERT, UPDATE or DELETE. -/
  | dml (table : String)
  /-- A query, with the names it looks up in the catalog. -/
  | query (tables : List String)
  /-- SET, SHOW and RESET. -/
  | setting

structure System where
  stores : RangeId → KvStore
  pins : RouterId → Pin

/-- What the router meets while it dispatches a statement. -/
structure Env where
  leads : RangeId → Bool
  /-- The gate: the range has settled the current term. -/
  serving : RangeId → Bool
  canEscalate : Bool
  /-- The answers of the coordinator and of the sessions it enlists. -/
  begun : Option Xid
  enlists : Bool
  /-- The session is in a failed block and takes no statement. -/
  blocked : Bool
  accepts : Bool
  fctx : ForeignCtx

namespace System

variable {env : Env} {i : RouterId} {S T : System} {stmt : Stmt} {k : Key} {A : Cat}

def initial : System := ⟨fun _ => ∅, fun _ => .none⟩

def setPin (S : System) (i : RouterId) (pin : Pin) : System :=
  { S with pins := Function.update S.pins i pin }

def setStore (S : System) (r : RangeId) (kv : KvStore) : System :=
  { S with stores := Function.update S.stores r kv }

@[simp] theorem stores_setStore_self (S : System) (r : RangeId) (kv : KvStore) :
    (S.setStore r kv).stores r = kv :=
  Function.update_self ..

theorem stores_setStore_of_ne (S : System) {q r : RangeId} (kv : KvStore) (h : q ≠ r) :
    (S.setStore r kv).stores q = S.stores q :=
  Function.update_of_ne h ..

end System

variable (C : RangeCommitter) (rangeForTable : TableId → RangeId)

/-- The range a statement needs, if any; `none` is an error. A foreign table has no range. -/
def pinningRange (catalog : KvStore) : Stmt → Option (Option RangeId)
  | .dml table =>
    match getTable catalog table with
    | .ok t => some (some (rangeForTable t.id))
    | .error _ => none
  | .query tables =>
    match tables.mapM (getTable catalog) with
    | .ok ts =>
      match ((ts.filter (·.foreign.isNone)).map fun t => rangeForTable t.id).dedup with
      | [] => some none
      | [r] => some (some r)
      | _ => none
    | .error _ => none
  | .begin | .commit | .rollback | .ddl _ | .setting => some none

def Stmt.isWrite : Stmt → Bool
  | .dml _ => true
  | .begin | .commit | .rollback | .ddl _ | .query _ | .setting => false

/-- The statement on the local session of `r`, and whether DDL was acknowledged. What a session
writes besides DDL is no catalog record. -/
def runSession (env : Env) (r : RangeId) (S : System) : Stmt → System × Bool
  | .ddl d =>
    if env.blocked then (S, false)
    else
      let run := runDdl C.apply env.fctx env.accepts d (S.stores r)
      (S.setStore r run.2, run.1.toBool)
  | .begin | .commit | .rollback | .dml _ | .query _ | .setting => (S, false)

/-- A range that is not led here is left to the router of its leader. -/
def runOn (env : Env) (stmt : Stmt) (r : RangeId) (S : System) : System × Bool :=
  if env.leads r then runSession C env r S stmt else (S, false)

def route (env : Env) (i : RouterId) (stmt : Stmt) (pinning : Option RangeId) (S : System) :
    System × Bool :=
  let run := runOn C env stmt
  match S.pins i with
  | .none => run (pinning.getD 0) S
  | .opened =>
    match pinning with
    | some r =>
      if env.leads r then
        let S := S.setPin i (.range r)
        if env.enlists then run r S else (S, false)
      else if env.canEscalate then
        match env.begun with
        | some g => (S.setPin i (.global [r] g), false)
        | none => (S, false)
      else (S, false)
    | none => run 0 S
  | .range p =>
    match pinning with
    | some r =>
      if r ≠ p then
        if env.canEscalate then
          match env.begun with
          | some g => (if env.enlists then S.setPin i (.global [p, r] g) else S, false)
          | none => (S, false)
        else (S, false)
      else run p S
    | none => run p S
  | .global ranges g =>
    match pinning with
    | some r => (S.setPin i (.global (ranges.insert r) g), false)
    | none => run 0 S

def finishTxn (env : Env) (i : RouterId) (stmt : Stmt) (S : System) : System × Bool :=
  let run := runOn C env stmt
  match S.pins i with
  | .global _ _ => (S.setPin i .none, false)
  | .range p => run p (S.setPin i .none)
  | .opened | .none => run 0 (S.setPin i .none)

def dispatch (env : Env) (i : RouterId) (stmt : Stmt) (S : System) : System × Bool :=
  match pinningRange rangeForTable (S.stores 0) stmt with
  | none => (S, false)
  | some pinning =>
    if stmt.isWrite ∧ pinning.any (fun r => env.leads r && !env.serving r) then (S, false)
    else
      match stmt with
      | .begin =>
        runOn C env stmt 0 (if S.pins i = .none then S.setPin i .opened else S)
      | .commit | .rollback => finishTxn C env i stmt S
      | _ => route C env i stmt pinning S

/-- The records that say what objects there are. -/
def isCatalogKey (k : Key) : Bool :=
  k == metaNextTableIdKey || (systemPrefix "catalog").isPrefixOf k ||
    (systemPrefix "fdw").isPrefixOf k || (systemPrefix "fsrv").isPrefixOf k ||
    (systemPrefix "umap").isPrefixOf k

inductive Action
  | dispatch (i : RouterId) (stmt : Stmt) (env : Env)
  /-- A session commits rows, sequences or transaction states to range `r`. -/
  | data (r : RangeId) (ops : List WriteOp)

def step (S : System) : Action → Option System
  | .dispatch i stmt env => some (dispatch C rangeForTable env i stmt S).1
  | .data r ops =>
    if ops.all fun op => !isCatalogKey op.key then some (S.setStore r (C.apply (S.stores r) ops))
    else none

def AtHome : Pin → Prop
  | .range p => p = 0
  | .none | .opened | .global _ _ => True

/-- DDL is dispatched only where the block is not pinned to another range, and what it brings fits
its fields. -/
def Homely (S : System) : Action → Prop
  | .dispatch i (.ddl d) env => AtHome (S.pins i) ∧
      ∀ next, readNextTableId (S.stores 0) = .ok next → d.Fits env.fctx next
  | _ => True

def Action.Drops (name : String) : Action → Prop
  | .dispatch _ (.ddl d) _ => name ∈ d.drops
  | _ => False

/-! ## Catalog records stay in range 0 -/

theorem plain_of_catalogKey (h : isCatalogKey k = true) :
    isCounterKey k = false ∧ isClogKey k = false := by
  simp only [isCatalogKey, Bool.or_eq_true, beq_iff_eq, isPrefixOf_iff_prefix] at h
  obtain (((rfl | ⟨x, rfl⟩) | ⟨x, rfl⟩) | ⟨x, rfl⟩) | ⟨x, rfl⟩ := h
  · decide
  · exact plain_of_tag (a := .catalog) (by decide) (by decide) (by decide) x
  · exact plain_of_tag (a := .fdw) (by decide) (by decide) (by decide) x
  · exact plain_of_tag (a := .fsrv) (by decide) (by decide) (by decide) x
  · exact plain_of_tag (a := .umap) (by decide) (by decide) (by decide) x

theorem isCatalogKey_of_tableKey (h : TableKey k) : isCatalogKey k = true := by
  obtain rfl | ⟨n, rfl⟩ := h
  · decide
  · have hpre : (systemPrefix "catalog").isPrefixOf (catalogKey n) = true :=
      isPrefixOf_iff_prefix.mpr (prefix_append _ _)
    simp only [isCatalogKey, hpre, Bool.or_true, Bool.true_or]

theorem getElem?_data {kv : KvStore} {ops : List WriteOp}
    (hops : ops.all (fun op => !isCatalogKey op.key) = true) (hk : isCatalogKey k = true) :
    (C.apply kv ops)[k]? = kv[k]? := by
  obtain ⟨hcounter, hclog⟩ := plain_of_catalogKey hk
  rw [C.plain kv ops k hcounter hclog]
  refine getElem?_writeBatch_of_ne fun op hop he => ?_
  have hnot := List.all_eq_true.mp hops op hop
  rw [he, hk] at hnot
  cases hnot

/-- What a dispatch does to the stores: nothing, unless it is DDL, which runs on range 0 when the
block is at home. -/
theorem dispatch_ddl {d : Ddl} (h : AtHome (S.pins i)) :
    dispatch C rangeForTable env i (.ddl d) S = runOn C env (.ddl d) 0 S := by
  simp only [dispatch, pinningRange, Stmt.isWrite, Bool.false_eq_true, false_and, if_false, route]
  cases hpin : S.pins i with
  | range =>
    rw [hpin] at h
    cases h
    rfl
  | _ => rfl

theorem stores_runOn (h : ∀ d, stmt ≠ .ddl d) (r : RangeId) (S : System) :
    (runOn C env stmt r S).1.stores = S.stores := by
  rw [runOn]
  split_ifs
  · cases stmt with
    | ddl d => exact absurd rfl (h d)
    | _ => rfl
  · rfl

theorem stores_route (h : ∀ d, stmt ≠ .ddl d) (pinning : Option RangeId) (S : System) :
    (route C env i stmt pinning S).1.stores = S.stores := by
  rw [route.eq_def]
  cases S.pins i with
  | none => exact stores_runOn C h _ S
  | opened =>
    cases pinning with
    | none => exact stores_runOn C h 0 S
    | some r =>
      simp only
      split_ifs
      · exact stores_runOn C h r (S.setPin i (.range r))
      · rfl
      · cases env.begun <;> rfl
      · rfl
  | range p =>
    cases pinning with
    | none => exact stores_runOn C h p S
    | some =>
      simp only
      split_ifs
      · cases env.begun <;> rfl
      · cases env.begun <;> rfl
      · rfl
      · exact stores_runOn C h p S
  | global =>
    cases pinning with
    | none => exact stores_runOn C h 0 S
    | some => rfl

theorem stores_finishTxn (h : ∀ d, stmt ≠ .ddl d) (S : System) :
    (finishTxn C env i stmt S).1.stores = S.stores := by
  rw [finishTxn.eq_def]
  cases S.pins i with
  | global => rfl
  | none | opened => exact stores_runOn C h 0 (S.setPin i .none)
  | range p => exact stores_runOn C h p (S.setPin i .none)

theorem stores_dispatch (h : ∀ d, stmt ≠ .ddl d) (S : System) :
    (dispatch C rangeForTable env i stmt S).1.stores = S.stores := by
  rw [dispatch]
  cases pinningRange rangeForTable (S.stores 0) stmt with
  | none => rfl
  | some pinning =>
    by_cases hgate : stmt.isWrite = true ∧
        pinning.any (fun r => env.leads r && !env.serving r) = true
    · simp only [if_pos hgate]
    · simp only [if_neg hgate]
      cases stmt with
      | ddl d => exact absurd rfl (h d)
      | begin =>
        refine (stores_runOn C h 0 _).trans ?_
        split_ifs <;> rfl
      | commit | rollback => exact stores_finishTxn C h S
      | _ => exact stores_route C h pinning S

theorem step_cases {a : Action} (hok : Homely S a) (hstep : step C rangeForTable S a = some T) :
    (∀ r k, isCatalogKey k = true → (T.stores r)[k]? = (S.stores r)[k]?) ∨
      ∃ i d env, a = .dispatch i (.ddl d) env ∧
        T = S.setStore 0 (runDdl C.apply env.fctx env.accepts d (S.stores 0)).2 := by
  cases a with
  | data r =>
    obtain ⟨hops, hT⟩ := Option.ite_none_right_eq_some.mp hstep
    cases hT
    refine .inl fun q k hk => ?_
    by_cases hq : q = r
    · subst hq
      rw [System.stores_setStore_self]
      exact getElem?_data C hops hk
    · rw [System.stores_setStore_of_ne _ _ hq]
  | dispatch i stmt env =>
    cases hstep
    by_cases hddl : ∃ d, stmt = .ddl d
    · obtain ⟨d, rfl⟩ := hddl
      rw [dispatch_ddl C rangeForTable hok.1, runOn]
      split_ifs
      · simp only [runSession]
        split_ifs
        · exact .inl fun _ _ _ => rfl
        · exact .inr ⟨i, d, env, rfl, rfl⟩
      · exact .inl fun _ _ _ => rfl
    · refine .inl fun r k _ => ?_
      rw [stores_dispatch C rangeForTable (fun d he => hddl ⟨d, he⟩) S]

/-- No range but 0 holds a record of the catalog, and the tables of range 0 are a catalog. -/
structure Housed (S : System) (A : Cat) : Prop where
  others : ∀ r, r ≠ 0 → ∀ k, isCatalogKey k = true → (S.stores r)[k]? = none
  represents : Represents (S.stores 0) A
  wf : A.WF

theorem housed_initial : Housed .initial ⟨fun _ => none, 1⟩ := by
  have hempty : ∀ k : Key, (∅ : KvStore)[k]? = none := fun k => Std.ExtTreeMap.getElem?_empty
  have hnext : readNextTableId ∅ = .ok 1 := by rw [readNextTableId, hempty]
  exact ⟨fun _ _ k _ => hempty k, ⟨fun n => hempty _, hnext, by simp⟩,
    ⟨Nat.le_refl 1, by simp, by simp⟩⟩

/-- One step keeps the catalog at home and takes it on without a drop that the action does not
name. -/
theorem Housed.step {a : Action} {D : Set String} (h : Housed S A) (hok : Homely S a)
    (hD : ∀ name, a.Drops name → name ∈ D) (hstep : step C rangeForTable S a = some T) :
    ∃ B, Housed T B ∧ Cat.Reach D A B := by
  obtain hsame | ⟨i, d, env, rfl, rfl⟩ := step_cases C rangeForTable hok hstep
  · refine ⟨A, ⟨?_, ?_, h.wf⟩, .refl⟩
    · intro r hr k hk
      rw [hsame r k hk, h.others r hr k hk]
    · exact h.represents.same fun k hk => hsame 0 k (isCatalogKey_of_tableKey hk)
  · obtain ⟨B, hB, hreach⟩ := runDdl_reaches C h.represents h.wf (hok.2 _ h.represents.next)
      env.accepts
    refine ⟨B, ⟨?_, ?_, hreach.wf h.wf⟩, hreach.mono hD⟩
    · intro r hr k hk
      rw [System.stores_setStore_of_ne _ _ hr]
      exact h.others r hr k hk
    · rw [System.stores_setStore_self]
      exact hB

theorem Housed.exec {as : List Action} {D : Set String} (h : Housed S A)
    (hok : Runs.Along (Dispatch.step C rangeForTable) Homely S as)
    (hD : ∀ a ∈ as, ∀ name, a.Drops name → name ∈ D)
    (hrun : exec (Dispatch.step C rangeForTable) S as = some T) :
    ∃ B, Housed T B ∧ Cat.Reach D A B := by
  induction as generalizing S A with
  | nil =>
    cases hrun
    exact ⟨A, h, .refl⟩
  | cons a as ih =>
    obtain ⟨S', hstep, hrest⟩ := exec_cons.mp hrun
    obtain ⟨B, hB, hreach⟩ := h.step C rangeForTable hok.1 (hD a mem_cons_self) hstep
    obtain ⟨B', hB', hreach'⟩ := ih hB (hok.2 S' hstep)
      (fun b hb => hD b (mem_cons_of_mem _ hb)) hrest
    exact ⟨B', hB', hreach.trans hreach'⟩

theorem Housed.created (h : Housed S A) {name : String} {columns : List Column}
    (hok : Homely S (.dispatch i (.ddl (.createTable name columns)) env))
    (hack : (dispatch C rangeForTable env i (.ddl (.createTable name columns)) S).2 = true) :
    ∃ t, getTable ((dispatch C rangeForTable env i (.ddl (.createTable name columns)) S).1.stores 0)
      name = .ok t := by
  obtain ⟨hhome, hfits⟩ := hok
  obtain ⟨hcols, hroom⟩ := hfits _ h.represents.next
  rw [dispatch_ddl C rangeForTable hhome, runOn] at hack ⊢
  split_ifs at hack ⊢
  simp only [runSession] at hack ⊢
  split_ifs at hack ⊢
  cases hrun : (runDdl C.apply env.fctx env.accepts (.createTable name columns) (S.stores 0)).1 with
  | error =>
    rw [hrun] at hack
    cases hack
  | ok =>
    rw [System.stores_setStore_self]
    exact ⟨_, runDdl_createTable C h.represents hcols hroom hrun⟩

/-- While DDL is dispatched only where the block is not pinned to another range, and table ids last,
no range but 0 ever holds a catalog record; a table found in range 0 is found until a statement
drops it; two tables that are found, together or one after the other, have different ids; and an
acknowledged CREATE TABLE leaves its table to be found. -/
theorem catalog_in_range_zero {S T : System} {as bs : List Action}
    (hS : exec (step C rangeForTable) .initial as = some S)
    (hT : exec (step C rangeForTable) S bs = some T)
    (hok : Runs.Along (step C rangeForTable) Homely .initial (as ++ bs)) :
    (∀ r, r ≠ 0 → ∀ k, isCatalogKey k = true → (T.stores r)[k]? = none) ∧
    (∀ name t, getTable (S.stores 0) name = .ok t → (∀ b ∈ bs, ¬b.Drops name) →
      getTable (T.stores 0) name = .ok t) ∧
    (∀ n m t u, getTable (S.stores 0) n = .ok t → getTable (T.stores 0) m = .ok u →
      t.id = u.id → n = m ∧ t = u) ∧
    ∀ i name columns env, Homely T (.dispatch i (.ddl (.createTable name columns)) env) →
      (dispatch C rangeForTable env i (.ddl (.createTable name columns)) T).2 = true →
      ∃ t, getTable
        ((dispatch C rangeForTable env i (.ddl (.createTable name columns)) T).1.stores 0)
        name = .ok t := by
  obtain ⟨hokS, hokT⟩ := along_append hok hS
  obtain ⟨A, hA, -⟩ := housed_initial.exec C rangeForTable (D := Set.univ) hokS
    (fun _ _ _ _ => trivial) hS
  obtain ⟨B, hB, hreach⟩ := hA.exec C rangeForTable (D := {n | ∃ b ∈ bs, b.Drops n}) hokT
    (fun b hb _ hdrop => ⟨b, hb, hdrop⟩) hT
  refine ⟨hB.others, ?_, ?_, fun i name columns env => hB.created C rangeForTable⟩
  · intro name t ht hkept
    have hs := hreach.stays (n := name) (fun ⟨b, hb, hdrop⟩ => hkept b hb hdrop)
      (hA.represents.tables_of_getTable ht)
    rw [hB.represents.getTable hs, ← ht, hA.represents.getTable
      (hA.represents.tables_of_getTable ht)]
  · intro n m t u ht hu hid
    have hn := hA.represents.tables_of_getTable ht
    obtain hm | hnew := hreach.old_or_new (hB.represents.tables_of_getTable hu)
    · obtain rfl := hA.wf.unique n m _ _ hn hm hid
      refine ⟨rfl, Except.ok.inj (ε := CatalogError) ?_⟩
      rw [← ht, ← hu, hA.represents.getTable hm, hB.represents.getTable
        (hB.represents.tables_of_getTable hu)]
    · exact absurd hid (Nat.ne_of_lt ((hA.wf.given n _ hn).2.trans_le hnew))

def Env.leader : Env where
  leads _ := true
  serving _ := true
  canEscalate := false
  begun := none
  enlists := true
  blocked := false
  accepts := true
  fctx := ⟨none, "public"⟩

def plainCommitter : RangeCommitter := ⟨KvStore.writeBatch, fun _ _ _ _ _ => rfl⟩

def createRun : List Action := [.dispatch 0 (.ddl (.createTable "a" [])) .leader]

def pinRun : List Action := [.dispatch 0 .begin .leader, .dispatch 0 (.dml "a") .leader]

theorem catalog_in_range_zero_pinned : ∃ S T,
    exec (step plainCommitter fun _ => 1) .initial createRun = some S ∧
    exec (step plainCommitter fun _ => 1) S pinRun = some T ∧ T.pins 0 = .range 1 ∧
    (∀ k, isCatalogKey k = true → (T.stores 1)[k]? = none) ∧
    getTable (T.stores 0) "a" = .ok ⟨1, "a", [], none⟩ := by
  have hok : Runs.Along (step plainCommitter fun _ => 1) Homely .initial (createRun ++ pinRun) := by
    refine ⟨⟨trivial, fun next hnext => ?_⟩, fun _ _ => ⟨trivial, fun _ _ => ⟨trivial, ?_⟩⟩⟩
    · cases (show next = 1 from (Except.ok.inj hnext).symm)
      exact ⟨⟨by decide, nofun⟩, by decide⟩
    · exact fun _ _ => trivial
  obtain ⟨hothers, hkept, -, -⟩ := catalog_in_range_zero plainCommitter (fun _ => 1) rfl rfl hok
  refine ⟨_, _, rfl, rfl, rfl, hothers 1 (by decide), hkept "a" _ rfl ?_⟩
  simp [pinRun, Action.Drops]

/-- A block pinned to range 1 creates a table: acknowledged, the table is in range 1's store, is not
found, and has the id of the table the block wrote to. -/
theorem pinned_ddl_leaves_range_zero : ∃ S T,
    exec (step plainCommitter fun _ => 1) .initial (createRun ++ pinRun) = some S ∧
    dispatch plainCommitter (fun _ => 1) .leader 0 (.ddl (.createTable "b" [])) S = (T, true) ∧
    getTable (T.stores 0) "b" = .error (.undefinedTable "b") ∧
    getTable (T.stores 1) "b" = .ok ⟨1, "b", [], none⟩ ∧
    getTable (T.stores 0) "a" = .ok ⟨1, "a", [], none⟩ :=
  ⟨_, _, rfl, rfl, rfl, rfl, rfl⟩

end Crabgresql.Dispatch
