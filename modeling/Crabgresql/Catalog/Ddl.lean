import Crabgresql.Lib.Runs
import Crabgresql.Catalog.Serde
import Crabgresql.Replica.Machine

/-!
# DDL and the store

`execute_ddl` on a key-value store. CREATE TABLE and DROP TABLE read the catalog
and return their writes, which the session hands to the committer. The statements
on foreign objects write to the store themselves and return no writes.
-/

namespace Crabgresql.Catalog

open Mvcc Replica Pgtypes
open Std (ExtTreeMap)

abbrev KvStore := ExtTreeMap Key Value

def KvStore.write (kv : KvStore) : WriteOp → KvStore
  | .put key value => kv.insert key value
  | .delete key => kv.erase key

def KvStore.writeBatch (kv : KvStore) (ops : List WriteOp) : KvStore := ops.foldl KvStore.write kv

inductive CatalogError
  | duplicateTable (name : String)
  | undefinedTable (name : String)
  | duplicateObject (name : String)
  | undefinedObject (name : String)
  | storage (e : KvError)

inductive ExecError
  | catalog (e : CatalogError)
  | unsupported (message : String)
  /-- The error of the foreign-data wrapper. -/
  | foreign (message : String)
  /-- The committer refused the batch. -/
  | notLeader

/-- A catalog function that writes: what it did to the store stays when it fails. -/
abbrev Writes := ExceptT CatalogError (StateM KvStore)

/-! ## Lookups -/

def lift {α : Type} (r : Except KvError α) : Except CatalogError α := r.mapError .storage

def readNextTableId (kv : KvStore) : Except CatalogError TableId :=
  match kv[metaNextTableIdKey]? with
  | some b =>
    if b.length < 4 then .error (.storage (.corruptRow "next_table_id is not u32"))
    else .ok (BigEndian.value (b.take 4))
  | none => .ok 1

def getTable (kv : KvStore) (name : String) : Except CatalogError Table := do
  let some bytes := kv[catalogKey name]? | throw (.undefinedTable name)
  let (id, columns, foreign) ← lift (deserializeSchema bytes)
  pure ⟨id, name, columns, foreign⟩

def getFdw (kv : KvStore) (name : String) : Except CatalogError ForeignDataWrapper := do
  let some bytes := kv[fdwKey name]? | throw (.undefinedObject name)
  lift (deserializeFdw bytes)

def getServer (kv : KvStore) (name : String) : Except CatalogError ForeignServer := do
  let some bytes := kv[serverKey name]? | throw (.undefinedObject name)
  lift (deserializeServer bytes)

def getUserMapping (kv : KvStore) (user server : String) : Except CatalogError UserMapping := do
  let some bytes := kv[userMappingKey user server]? | throw (.undefinedObject s!"{user}@{server}")
  lift (deserializeUserMapping bytes)

/-! ## Tables: functions that return their writes -/

/-- The schema, the sequence and the next table id of a new table. -/
def tableOps (id : TableId) (name : String) (columns : List Column)
    (foreign : Option ForeignTableMeta) : List WriteOp :=
  [.put (catalogKey name) (serializeSchema id columns foreign), .put (seqKey id) (u64Bytes 1),
    .put metaNextTableIdKey (u32Bytes (id + 1))]

def createTableOps (kv : KvStore) (name : String) (columns : List Column) :
    Except CatalogError (TableId × List WriteOp) := do
  if (kv[catalogKey name]?).isSome then throw (.duplicateTable name)
  let next ← readNextTableId kv
  pure (next, tableOps next name columns none)

def dropTableOps (kv : KvStore) (name : String) : Except CatalogError (List WriteOp) := do
  let table ← getTable kv name
  pure ([.delete (catalogKey name), .delete (seqKey table.id)] ++
    (scanPrefix kv (tablePrefix table.id)).map fun row => .delete row.1)

/-! ## Foreign objects: functions that write -/

def writeBatchM (ops : List WriteOp) : Writes Unit := modify (KvStore.writeBatch · ops)

def readM {α : Type} (f : KvStore → Except CatalogError α) : Writes α := do
  let kv ← get
  MonadExcept.ofExcept (f kv)

def createObject (key : Key) (shown : String) (value : Value) : Writes Unit := do
  let kv ← get
  if (kv[key]?).isSome then throw (.duplicateObject shown)
  writeBatchM [.put key value]

def createFdw (name : String) (options : Options) : Writes Unit :=
  createObject (fdwKey name) name (serializeFdw name options)

def createServer (name wrapper : String) (options : Options) : Writes Unit :=
  createObject (serverKey name) name (serializeServer name wrapper options)

def createUserMapping (user server : String) (options : Options) : Writes Unit :=
  createObject (userMappingKey user server) s!"{user}@{server}"
    (serializeUserMapping user server options)

def dropFdw (name : String) : Writes Unit := do
  let _ ← readM (getFdw · name)
  writeBatchM [.delete (fdwKey name)]

def dropServer (name : String) : Writes Unit := do
  let _ ← readM (getServer · name)
  writeBatchM [.delete (serverKey name)]

def dropUserMapping (user server : String) : Writes Unit := do
  let _ ← readM (getUserMapping · user server)
  writeBatchM [.delete (userMappingKey user server)]

def dropTable (name : String) : Writes Unit := do
  let ops ← readM (dropTableOps · name)
  writeBatchM ops

/-- The columns in front of every foreign table's own. -/
def envelopeColumns : List Column :=
  [⟨"_partition", .int4⟩, ⟨"_offset", .int8⟩, ⟨"_timestamp", .timestamptz⟩, ⟨"_key", .bytea⟩,
    ⟨"_headers", .text⟩]

def createForeignTable (name : String) (valueColumns : List Column) (server : String)
    (options : Options) : Writes TableId := do
  let _ ← readM (getServer · server)
  let kv ← get
  if (kv[catalogKey name]?).isSome then throw (.duplicateTable name)
  let next ← readM readNextTableId
  writeBatchM (tableOps next name (envelopeColumns ++ valueColumns) (some ⟨server, options⟩))
  pure next

/-! ## Statements -/

inductive ImportFilter
  | all
  | only (names : List String)
  | except (names : List String)

inductive Ddl
  | createTable (name : String) (columns : List Column)
  | dropTable (name : String)
  | createFdw (name : String) (options : Options)
  | dropFdw (name : String) (ifExists : Bool)
  | createServer (name wrapper : String) (options : Options)
  | alterServer
  | dropServer (name : String) (ifExists : Bool)
  | createUserMapping (user server : String) (options : Options)
  | alterUserMapping
  | dropUserMapping (user server : String) (ifExists : Bool)
  | createForeignTable (name : String) (columns : List Column) (server : String)
      (options : Options)
  | dropForeignTable (name : String) (ifExists : Bool)
  | importForeignSchema (selector : ImportFilter) (server : String)

structure ImportedTable where
  name : String
  columns : List Column
  options : Options

abbrev Scanner :=
  ForeignServer → Option UserMapping → ImportFilter → Except ExecError (List ImportedTable)

structure ForeignCtx where
  scanner : Option Scanner
  currentUser : String

def normalizeMappingUser (user : String) : String :=
  if user.toLower = "current_user" ∨ user.toLower = "public" then "public" else user

abbrev Exec := ExceptT ExecError (StateM KvStore)

def Exec.ofWrites {α : Type} (m : Writes α) : Exec α := fun kv =>
  (m kv).map (·.mapError .catalog) id

/-- `IF EXISTS` swallows a missing object. -/
def ignoreMissing (m : Writes Unit) (ifExists : Bool) : Exec Unit := fun kv =>
  match m kv with
  | (.error (.undefinedObject name), kv') =>
    (if ifExists then .ok () else .error (.catalog (.undefinedObject name)), kv')
  | (.error e, kv') => (.error (.catalog e), kv')
  | (.ok (), kv') => (.ok (), kv')

def ignoreMissingTable (m : Writes Unit) (ifExists : Bool) : Exec Unit := fun kv =>
  match m kv with
  | (.error (.undefinedTable name), kv') =>
    (if ifExists then .ok () else .error (.catalog (.undefinedTable name)), kv')
  | (.error e, kv') => (.error (.catalog e), kv')
  | (.ok (), kv') => (.ok (), kv')

def importForeignSchema (fctx : ForeignCtx) (selector : ImportFilter) (server : String) :
    Exec Unit := do
  let srv ← Exec.ofWrites (readM (getServer · server))
  let kv ← get
  let mapping := (getUserMapping kv fctx.currentUser server).toOption
  let some scanner := fctx.scanner
    | throw (.unsupported "foreign tables require the `kafka` feature")
  let tables ← MonadExcept.ofExcept (scanner srv mapping selector)
  tables.forM fun table => do
    let _ ← Exec.ofWrites (createForeignTable table.name table.columns srv.name table.options)

def executeDdl (fctx : ForeignCtx) : Ddl → Exec (String × List WriteOp)
  | .createTable name columns => do
    let kv ← get
    let (_, ops) ← MonadExcept.ofExcept ((createTableOps kv name columns).mapError .catalog)
    pure ("CREATE TABLE", ops)
  | .dropTable name => do
    let kv ← get
    let ops ← MonadExcept.ofExcept ((dropTableOps kv name).mapError .catalog)
    pure ("DROP TABLE", ops)
  | .createFdw name options => do
    Exec.ofWrites (createFdw name options)
    pure ("CREATE FOREIGN DATA WRAPPER", [])
  | .dropFdw name ifExists => do
    ignoreMissing (dropFdw name) ifExists
    pure ("DROP FOREIGN DATA WRAPPER", [])
  | .createServer name wrapper options => do
    Exec.ofWrites (createServer name wrapper options)
    pure ("CREATE SERVER", [])
  | .alterServer => throw (.unsupported "ALTER SERVER not supported")
  | .dropServer name ifExists => do
    ignoreMissing (dropServer name) ifExists
    pure ("DROP SERVER", [])
  | .createUserMapping user server options => do
    Exec.ofWrites (createUserMapping (normalizeMappingUser user) server options)
    pure ("CREATE USER MAPPING", [])
  | .alterUserMapping => throw (.unsupported "ALTER USER MAPPING not supported")
  | .dropUserMapping user server ifExists => do
    ignoreMissing (dropUserMapping (normalizeMappingUser user) server) ifExists
    pure ("DROP USER MAPPING", [])
  | .createForeignTable name columns server options => do
    let _ ← Exec.ofWrites (createForeignTable name columns server options)
    pure ("CREATE FOREIGN TABLE", [])
  | .dropForeignTable name ifExists => do
    ignoreMissingTable (dropTable name) ifExists
    pure ("DROP FOREIGN TABLE", [])
  | .importForeignSchema selector server => do
    importForeignSchema fctx selector server
    pure ("IMPORT FOREIGN SCHEMA", [])

abbrev Committer := KvStore → List WriteOp → KvStore

/-- The session's DDL: the writes go to the committer, which may refuse them. -/
def runDdl (commit : Committer) (fctx : ForeignCtx) (accepts : Bool) (stmt : Ddl) :
    Exec String := do
  let (tag, ops) ← executeDdl fctx stmt
  if accepts then modify (commit · ops) else throw .notLeader
  pure tag

def Ddl.isTable : Ddl → Bool
  | .createTable _ _ | .dropTable _ => true
  | .createFdw _ _ | .dropFdw _ _ | .createServer _ _ _ | .alterServer | .dropServer _ _
  | .createUserMapping _ _ _ | .alterUserMapping | .dropUserMapping _ _ _
  | .createForeignTable _ _ _ _ | .dropForeignTable _ _ | .importForeignSchema _ _ => false

/-! ## What reaches the committer -/

theorem bind_run {ε α β : Type} (m : ExceptT ε (StateM KvStore) α)
    (f : α → ExceptT ε (StateM KvStore) β) (kv : KvStore) : (m >>= f) kv =
      match m kv with
      | (.ok a, kv') => f a kv'
      | (.error e, kv') => (.error e, kv') := by
  change ExceptT.bindCont f _ _ = _
  obtain ⟨r, kv'⟩ := m kv
  cases r <;> rfl

section

variable (commit : Committer) (fctx : ForeignCtx)

theorem runDdl_eq (accepts : Bool) (stmt : Ddl) (kv : KvStore) :
    runDdl commit fctx accepts stmt kv =
      match executeDdl fctx stmt kv with
      | (.ok (tag, ops), kv') =>
        if accepts then (.ok tag, commit kv' ops) else (.error .notLeader, kv')
      | (.error e, kv') => (.error e, kv') := by
  rw [runDdl, bind_run]
  obtain ⟨r, kv'⟩ := executeDdl fctx stmt kv
  cases r with
  | error => rfl
  | ok => cases accepts <;> rfl

theorem executeDdl_createTable (name : String) (columns : List Column) (kv : KvStore) :
    executeDdl fctx (.createTable name columns) kv =
      (((createTableOps kv name columns).mapError .catalog).map fun r => ("CREATE TABLE", r.2),
        kv) := by
  simp only [executeDdl]
  change (MonadExcept.ofExcept _ >>= _ : Exec _) kv = _
  rw [bind_run]
  cases createTableOps kv name columns <;> rfl

theorem executeDdl_dropTable (name : String) (kv : KvStore) : executeDdl fctx (.dropTable name) kv =
      (((dropTableOps kv name).mapError .catalog).map fun ops => ("DROP TABLE", ops), kv) := by
  simp only [executeDdl]
  change (MonadExcept.ofExcept _ >>= _ : Exec _) kv = _
  rw [bind_run]
  cases dropTableOps kv name <;> rfl

theorem executeDdl_table {stmt : Ddl} (h : stmt.isTable = true) (kv : KvStore) :
    (executeDdl fctx stmt kv).2 = kv := by
  cases stmt with
  | createTable => rw [executeDdl_createTable]
  | dropTable => rw [executeDdl_dropTable]
  | createFdw | dropFdw | createServer | alterServer | dropServer | createUserMapping
  | alterUserMapping | dropUserMapping | createForeignTable | dropForeignTable
  | importForeignSchema => cases h

theorem ops_of_direct {α : Type} {m : Exec α} {name tag : String} {ops : List WriteOp}
    {kv : KvStore} (h : ((m >>= fun _ => pure (name, [])) kv).1 = .ok (tag, ops)) : ops = [] := by
  rw [bind_run] at h
  generalize m kv = p at h
  obtain ⟨r, kv'⟩ := p
  cases r with
  | error => cases h
  | ok =>
    cases h
    rfl

theorem executeDdl_foreign {stmt : Ddl} (h : stmt.isTable = false) {kv : KvStore} {tag : String}
    {ops : List WriteOp} (hok : (executeDdl fctx stmt kv).1 = .ok (tag, ops)) : ops = [] := by
  cases stmt with
  | createTable | dropTable => cases h
  | alterServer | alterUserMapping => cases hok
  | createFdw | dropFdw | createServer | dropServer | createUserMapping | dropUserMapping
  | createForeignTable | dropForeignTable | importForeignSchema => exact ops_of_direct hok

/-- A replica that holds the batches it has committed. -/
structure Replicated where
  log : List (List WriteOp)
  kv : KvStore

/-- A DDL statement on the replica, with the committer's decision. -/
def Replicated.ddl (r : Replicated) (a : Ddl × Bool) : Replicated :=
  let (result, kv) := runDdl commit fctx a.2 a.1 r.kv
  match result, (executeDdl fctx a.1 r.kv).1 with
  | .ok _, .ok (_, ops) => ⟨r.log ++ [ops], kv⟩
  | _, _ => ⟨r.log, kv⟩

/-- The store is what the log makes of the store it began with. -/
def Replicated.Follows (kv₀ : KvStore) (r : Replicated) : Prop := r.kv = r.log.foldl commit kv₀

theorem Replicated.follows_ddl {kv₀ : KvStore} {r : Replicated} {a : Ddl × Bool}
    (h : r.Follows commit kv₀) (ha : a.1.isTable = true) :
    (r.ddl commit fctx a).Follows commit kv₀ := by
  have hkv := executeDdl_table fctx ha r.kv
  unfold Replicated.Follows at h
  unfold Replicated.ddl Replicated.Follows
  rw [runDdl_eq]
  generalize executeDdl fctx a.1 r.kv = p at hkv
  obtain ⟨result, kv'⟩ := p
  change kv' = r.kv at hkv
  subst hkv
  cases result with
  | error => exact h
  | ok o =>
    cases a.2 with
    | false => exact h
    | true =>
      change commit r.kv o.2 = (r.log ++ [o.2]).foldl commit kv₀
      rw [List.foldl_append, ← h]
      rfl

theorem Replicated.follows_run {kv₀ : KvStore} {r : Replicated} {stmts : List (Ddl × Bool)}
    (h : r.Follows commit kv₀) (hs : ∀ a ∈ stmts, a.1.isTable = true) :
    (stmts.foldl (Replicated.ddl commit fctx) r).Follows commit kv₀ := by
  induction stmts generalizing r with
  | nil => exact h
  | cons a stmts ih =>
    exact ih (r.follows_ddl commit fctx h (hs a List.mem_cons_self))
      fun b hb => hs b (List.mem_cons_of_mem _ hb)

end

end Crabgresql.Catalog
