import Crabgresql.Catalog.Tables

/-!
# Statements that fail

What a DDL statement that returns an error leaves in the store. Every function of the catalog
checks before it writes its one batch. IMPORT FOREIGN SCHEMA calls such a function once per
discovered table, and a statement on foreign objects has written when the committer is asked.
-/

namespace Crabgresql.Catalog

open Mvcc Replica List

variable {server : String} {α : Type} {tables : List ImportedTable}

/-- When the function fails the store is as it was. -/
def Clean {ε α : Type} (m : ExceptT ε (StateM KvStore) α) (kv : KvStore) : Prop :=
  ∀ e, (m kv).1 = .error e → (m kv).2 = kv

/-! ## Functions that check and then write -/

theorem clean_createObject (key : Key) (shown : String) (value : Value) (kv : KvStore) :
    Clean (createObject key shown value) kv := by
  intro e h
  rw [createObject_run] at h ⊢
  split_ifs at h ⊢
  rfl

theorem clean_readM_writeBatchM (f : KvStore → Except CatalogError α) (ops : α → List WriteOp)
    (kv : KvStore) : Clean (readM f >>= fun a => writeBatchM (ops a)) kv := by
  intro e h
  rw [readM_writeBatchM_run] at h ⊢
  cases hf : f kv with
  | error => rfl
  | ok =>
    rw [hf] at h
    cases h

theorem createForeignTable_eq (name : String) (columns : List Column) (server : String)
    (options : Options) (kv : KvStore) : createForeignTable name columns server options kv =
      match getServer kv server with
      | .error e => (.error e, kv)
      | .ok _ =>
        if (kv[catalogKey name]?).isSome then (.error (.duplicateTable name), kv)
        else
          match readNextTableId kv with
          | .error e => (.error e, kv)
          | .ok next =>
            (.ok next, kv.writeBatch
              (tableOps next name (envelopeColumns ++ columns) (some ⟨server, options⟩))) := by
  rw [createForeignTable, bind_run, readM_run]
  cases getServer kv server with
  | error => rfl
  | ok =>
    change ((get : Writes KvStore) >>= _) kv = _
    rw [bind_run]
    change (ite _ _ _ : Writes TableId) kv = _
    dsimp only
    split_ifs with htaken
    · rfl
    · rw [bind_run, readM_run]
      cases readNextTableId kv <;> rfl

theorem clean_createForeignTable (name : String) (columns : List Column) (server : String)
    (options : Options) (kv : KvStore) :
    Clean (createForeignTable name columns server options) kv := by
  intro e h
  rw [createForeignTable_eq] at h ⊢
  cases hsrv : getServer kv server with
  | error => rfl
  | ok =>
    rw [hsrv] at h
    dsimp only at h ⊢
    split_ifs at h ⊢
    · rfl
    · cases hnext : readNextTableId kv with
      | error => rfl
      | ok =>
        rw [hnext] at h
        cases h

/-! ## What the statements add -/

variable {kv : KvStore}

theorem Clean.ofWrites {m : Writes α} (h : Clean m kv) : Clean (Exec.ofWrites m) kv := by
  intro e he
  rw [Exec.ofWrites] at he ⊢
  cases hr : (m kv).1 with
  | error e' => exact h e' hr
  | ok =>
    change (m kv).1.mapError _ = _ at he
    rw [hr] at he
    cases he

theorem Clean.ignoreMissing {m : Writes Unit} (h : Clean m kv) (b : Bool) :
    Clean (ignoreMissing m b) kv := by
  intro e he
  rw [snd_ignoreMissing]
  cases hr : (m kv).1 with
  | error e' => exact h e' hr
  | ok u =>
    rw [Catalog.ignoreMissing, show m kv = (.ok u, (m kv).2) from Prod.ext hr rfl] at he
    cases he

theorem Clean.ignoreMissingTable {m : Writes Unit} (h : Clean m kv) (b : Bool) :
    Clean (ignoreMissingTable m b) kv := by
  intro e he
  rw [snd_ignoreMissingTable]
  cases hr : (m kv).1 with
  | error e' => exact h e' hr
  | ok u =>
    rw [Catalog.ignoreMissingTable, show m kv = (.ok u, (m kv).2) from Prod.ext hr rfl] at he
    cases he

theorem Clean.bind_pure {ε β : Type} {m : ExceptT ε (StateM KvStore) α}
    (h : Clean m kv) (b : β) : Clean (m >>= fun _ => pure b) kv := by
  intro e he
  rw [snd_bind_pure]
  rw [bind_run] at he
  cases hr : (m kv).1 with
  | error e' => exact h e' hr
  | ok a =>
    rw [show m kv = (.ok a, (m kv).2) from Prod.ext hr rfl] at he
    cases he

/-! ## The loop of an import -/

def importTables (server : String) (tables : List ImportedTable) : Exec PUnit :=
  tables.forM fun table => do
    let _ ← Exec.ofWrites (createForeignTable table.name table.columns server table.options)

theorem importTables_cons (server : String) (t : ImportedTable) (tables : List ImportedTable)
    (kv : KvStore) : importTables server (t :: tables) kv =
      match createForeignTable t.name t.columns server t.options kv with
      | (.ok _, kv') => importTables server tables kv'
      | (.error e, kv') => (.error (.catalog e), kv') := by
  change ((Exec.ofWrites (createForeignTable t.name t.columns server t.options) >>=
      fun _ => pure PUnit.unit) >>= fun _ => importTables server tables : Exec PUnit) kv = _
  rw [bind_run, bind_run, Exec.ofWrites]
  generalize createForeignTable t.name t.columns server t.options kv = run
  obtain ⟨result, kv'⟩ := run
  cases result <;> rfl

/-- The store in which no table of the list meets an error. -/
structure Importable (server : String) (tables : List ImportedTable) (kv : KvStore) : Prop where
  server : ∃ srv, getServer kv server = .ok srv
  next : ∃ id, readNextTableId kv = .ok id
  nodup : (tables.map (·.name)).Nodup
  fresh : ∀ t ∈ tables, kv[catalogKey t.name]? = none

section

variable {kv : KvStore} {id : TableId} {name : String} {columns : List Column}
  {foreign : Option ForeignTableMeta}

theorem getServer_tableOps (server : String) :
    getServer (kv.writeBatch (tableOps id name columns foreign)) server = getServer kv server := by
  rw [getServer, getServer, getElem?_writeBatch_of_ne]
  intro op hop
  simp only [tableOps, mem_cons, not_mem_nil, or_false] at hop
  obtain rfl | rfl | rfl := hop
  · exact systemPrefix_ne (a := .catalog) (b := .fsrv) (by decide) _ _
  · exact systemPrefix_ne (a := .seq) (b := .fsrv) (by decide) _ _
  · exact systemPrefix_ne (a := .metadata) (b := .fsrv) (by decide) _ _

theorem readNextTableId_tableOps :
    ∃ n, readNextTableId (kv.writeBatch (tableOps id name columns foreign)) = .ok n := by
  have hget : (kv.writeBatch (tableOps id name columns foreign))[metaNextTableIdKey]? =
      some (u32Bytes (id + 1)) := Std.ExtTreeMap.getElem?_insert_self
  refine ⟨BigEndian.value ((u32Bytes (id + 1)).take 4), ?_⟩
  rw [readNextTableId, hget]
  exact if_neg (by simp [u32Bytes])

theorem getElem?_tableOps_of_ne {n : String} (h : n ≠ name) :
    (kv.writeBatch (tableOps id name columns foreign))[catalogKey n]? = kv[catalogKey n]? := by
  refine getElem?_writeBatch_of_ne fun op hop => ?_
  simp only [tableOps, mem_cons, not_mem_nil, or_false] at hop
  obtain rfl | rfl | rfl := hop
  · exact fun he => h (catalogKey_inj he).symm
  · exact systemPrefix_ne (a := .seq) (b := .catalog) (by decide) _ _
  · exact (catalogKey_ne_meta n).symm

end

theorem importable_of_created {t : ImportedTable} {kv' : KvStore} {id : TableId}
    (h : createForeignTable t.name t.columns server t.options kv = (.ok id, kv'))
    (hnodup : ((t :: tables).map (·.name)).Nodup)
    (hfresh : ∀ u ∈ tables, kv[catalogKey u.name]? = none) : Importable server tables kv' := by
  rw [createForeignTable_eq] at h
  cases hsrv : getServer kv server with
  | error =>
    rw [hsrv] at h
    cases h
  | ok srv =>
    rw [hsrv] at h
    dsimp only at h
    by_cases htaken : (kv[catalogKey t.name]?).isSome = true
    · rw [if_pos htaken] at h
      cases h
    rw [if_neg htaken] at h
    cases hnext : readNextTableId kv with
    | error =>
      rw [hnext] at h
      cases h
    | ok =>
      rw [hnext] at h
      cases h
      rw [map_cons, nodup_cons] at hnodup
      refine ⟨⟨srv, ?_⟩, readNextTableId_tableOps, hnodup.2, fun u hu => ?_⟩
      · rw [getServer_tableOps, hsrv]
      · have hne : u.name ≠ t.name := fun he => hnodup.1 (he ▸ List.mem_map_of_mem hu)
        rw [getElem?_tableOps_of_ne hne, hfresh u hu]

theorem createForeignTable_importable {t : ImportedTable} (h : Importable server (t :: tables) kv) :
    ∃ id kv', createForeignTable t.name t.columns server t.options kv = (.ok id, kv') := by
  obtain ⟨srv, hsrv⟩ := h.server
  obtain ⟨id, hid⟩ := h.next
  have hfresh := h.fresh t mem_cons_self
  refine ⟨id, kv.writeBatch (tableOps id t.name (envelopeColumns ++ t.columns)
    (some ⟨server, t.options⟩)), ?_⟩
  rw [createForeignTable_eq, hsrv, hid, hfresh]
  rfl

-- Induction on the list: each table keeps the server, the counter and the names still to come.
theorem importTables_importable (tables : List ImportedTable)
    (h : Importable server tables kv) : ∃ kv', importTables server tables kv = (.ok ⟨⟩, kv') := by
  induction tables generalizing kv with
  | nil => exact ⟨kv, rfl⟩
  | cons t tables ih =>
    obtain ⟨id, kv', hcreate⟩ := createForeignTable_importable h
    rw [importTables_cons, hcreate]
    exact ih <| importable_of_created hcreate h.nodup
      fun u hu => h.fresh u (mem_cons_of_mem _ hu)

theorem clean_importTables (server : String) (hnodup : (tables.map (·.name)).Nodup)
    (hfresh : ∀ t ∈ tables.tail, kv[catalogKey t.name]? = none) :
    Clean (importTables server tables) kv := by
  cases tables with
  | nil => exact fun _ h => nomatch h
  | cons t tables =>
    intro e he
    have hclean := clean_createForeignTable t.name t.columns server t.options kv
    rw [importTables_cons] at he ⊢
    rw [Clean] at hclean
    generalize hrun : createForeignTable t.name t.columns server t.options kv = run at he hclean ⊢
    obtain ⟨result, kv'⟩ := run
    cases result with
    | error e' => exact hclean e' rfl
    | ok =>
      obtain ⟨kv'', hrest⟩ := importTables_importable tables
        (importable_of_created hrun hnodup hfresh)
      dsimp only at he
      rw [hrest] at he
      cases he

/-! ## Whole statements -/

def discovered (fctx : ForeignCtx) (kv : KvStore) (selector : ImportFilter) (server : String) :
    List ImportedTable :=
  match getServer kv server, fctx.scanner with
  | .ok srv, some scanner =>
    match scanner srv (getUserMapping kv fctx.currentUser server).toOption selector with
    | .ok tables => tables
    | .error _ => []
  | _, _ => []

/-- An import names each table once, and after the first only tables that do not exist. -/
def Ddl.ImportsNew (fctx : ForeignCtx) (kv : KvStore) : Ddl → Prop
  | .importForeignSchema selector server =>
    ((discovered fctx kv selector server).map (·.name)).Nodup ∧
      ∀ t ∈ (discovered fctx kv selector server).tail, kv[catalogKey t.name]? = none
  | _ => True

theorem clean_importForeignSchema {fctx : ForeignCtx} {selector : ImportFilter}
    (h : (Ddl.importForeignSchema selector server).ImportsNew fctx kv) :
    Clean (importForeignSchema fctx selector server) kv := by
  intro e he
  rw [Ddl.ImportsNew, discovered] at h
  rw [importForeignSchema, bind_run, Exec.ofWrites, readM_run] at he ⊢
  cases hsrv : getServer kv server with
  | error => rfl
  | ok srv =>
    rw [hsrv] at h he
    change (((get : Exec KvStore) >>= _) kv).1 = _ at he
    change (((get : Exec KvStore) >>= _) kv).2 = _
    rw [bind_run] at he ⊢
    cases hscan : fctx.scanner with
    | none => rfl
    | some scanner =>
      rw [hscan] at h he
      change (((MonadExcept.ofExcept
        (scanner srv (getUserMapping kv fctx.currentUser server).toOption selector) : Exec _) >>=
          _) kv).1 = _ at he
      change (((MonadExcept.ofExcept
        (scanner srv (getUserMapping kv fctx.currentUser server).toOption selector) : Exec _) >>=
          _) kv).2 = _
      rw [bind_run] at he ⊢
      cases htables : scanner srv (getUserMapping kv fctx.currentUser server).toOption selector with
      | error => rfl
      | ok =>
        simp only [htables] at h he
        exact clean_importTables srv.name h.1 h.2 e he

theorem clean_executeDdl {fctx : ForeignCtx} {stmt : Ddl}
    (h : stmt.ImportsNew fctx kv) : Clean (executeDdl fctx stmt) kv := by
  cases stmt with
  | createTable | dropTable => exact fun _ _ => executeDdl_table fctx rfl kv
  | createFdw | createServer => exact (clean_createObject _ _ _ kv).ofWrites.bind_pure _
  | createUserMapping =>
    exact (clean_createObject _ _ _ kv).ofWrites.bind_pure _
  | dropFdw name ifExists | dropServer name ifExists | dropUserMapping user server ifExists =>
    exact ((clean_readM_writeBatchM _ _ kv).ignoreMissing ifExists).bind_pure _
  | alterServer | alterUserMapping => exact fun _ _ => rfl
  | createForeignTable name columns server options =>
    exact (clean_createForeignTable name columns server options kv).ofWrites.bind_pure _
  | dropForeignTable name ifExists =>
    exact ((clean_readM_writeBatchM _ _ kv).ignoreMissingTable ifExists).bind_pure _
  | importForeignSchema => exact (clean_importForeignSchema h).bind_pure _

def oneServer : KvStore := (∅ : KvStore).insert (serverKey "s") (serializeServer "s" "w" [])

def discovering (names : List String) : ForeignCtx :=
  ⟨some fun _ _ _ => .ok (names.map fun name => ⟨name, [], []⟩), "public"⟩

def oneTable : KvStore :=
  (runDdl KvStore.writeBatch (discovering ["a"]) true (.importForeignSchema .all "s") oneServer).2

end Crabgresql.Catalog
