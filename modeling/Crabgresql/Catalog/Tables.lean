import Crabgresql.Lib.OrderedMap
import Crabgresql.Catalog.Ddl

/-!
# The tables of a catalog

The catalog of tables as such: a schema for each name and the next table id. New
tables take the next id, so an id is never given out twice. A store represents a
catalog when its records are the schemas' bytes, and every DDL statement on a
store that does takes it to one that represents a catalog with some tables added
and, for a drop, one removed.
-/

namespace Crabgresql.Catalog

open Mvcc Replica Pgtypes Function List Nat
open Std (ExtTreeMap)

structure Schema where
  id : ℕ
  columns : List Column
  foreign : Option ForeignTableMeta

structure Cat where
  tables : String → Option Schema
  next : ℕ

namespace Cat

def create (A : Cat) (name : String) (columns : List Column)
    (foreign : Option ForeignTableMeta) : Cat :=
  ⟨Function.update A.tables name (some ⟨A.next, columns, foreign⟩), A.next + 1⟩

def drop (A : Cat) (name : String) : Cat := { A with tables := Function.update A.tables name none }

section

variable {A : Cat} {name n : String} {columns : List Column} {foreign : Option ForeignTableMeta}

@[simp] theorem tables_create_self :
    (A.create name columns foreign).tables name = some ⟨A.next, columns, foreign⟩ :=
  update_self ..

theorem tables_create_of_ne (h : n ≠ name) :
    (A.create name columns foreign).tables n = A.tables n :=
  update_of_ne h ..

@[simp] theorem tables_drop_self : (A.drop name).tables name = none := update_self ..

theorem tables_drop_of_ne (h : n ≠ name) : (A.drop name).tables n = A.tables n :=
  update_of_ne h ..

end

/-- What statements that drop only tables of `D` can do. -/
inductive Reach (D : Set String) (A : Cat) : Cat → Prop
  | refl : Reach D A A
  | create {B : Cat} (h : Reach D A B) (name : String) (columns : List Column)
      (foreign : Option ForeignTableMeta) (hnew : B.tables name = none) :
      Reach D A (B.create name columns foreign)
  | drop {B : Cat} (h : Reach D A B) {name : String} (hname : name ∈ D) : Reach D A (B.drop name)

/-- Every id was given out, and to one table. -/
structure WF (A : Cat) : Prop where
  positive : 1 ≤ A.next
  given : ∀ n s, A.tables n = some s → 1 ≤ s.id ∧ s.id < A.next
  unique : ∀ n m s t, A.tables n = some s → A.tables m = some t → s.id = t.id → n = m

variable {n : String} {s : Schema}

theorem tables_create {A : Cat} {name : String} {columns : List Column}
    {foreign : Option ForeignTableMeta} (h : (A.create name columns foreign).tables n = some s) :
    (n = name ∧ s = ⟨A.next, columns, foreign⟩) ∨ (n ≠ name ∧ A.tables n = some s) := by
  by_cases hn : n = name
  · subst hn
    rw [tables_create_self] at h
    exact .inl ⟨rfl, (Option.some.inj h).symm⟩
  · rw [tables_create_of_ne hn] at h
    exact .inr ⟨hn, h⟩

theorem tables_drop {A : Cat} {name : String}
    (h : (A.drop name).tables n = some s) : n ≠ name ∧ A.tables n = some s := by
  by_cases hn : n = name
  · subst hn
    rw [tables_drop_self] at h
    cases h
  · rw [tables_drop_of_ne hn] at h
    exact ⟨hn, h⟩

theorem WF.create {A : Cat} (h : A.WF) (name : String) (columns : List Column)
    (foreign : Option ForeignTableMeta) : (A.create name columns foreign).WF := by
  refine ⟨le_succ_of_le h.positive, ?_, ?_⟩
  · intro n s hs
    obtain ⟨-, rfl⟩ | ⟨-, hold⟩ := tables_create hs
    · exact ⟨h.positive, lt_succ_self _⟩
    · exact ⟨(h.given n s hold).1, lt_succ_of_lt (h.given n s hold).2⟩
  · intro n m s t hs ht hid
    obtain ⟨rfl, rfl⟩ | ⟨-, hn⟩ := tables_create hs <;>
      obtain ⟨rfl, rfl⟩ | ⟨-, hm⟩ := tables_create ht
    · rfl
    · exact absurd hid (ne_of_gt (h.given m t hm).2)
    · exact absurd hid (Nat.ne_of_lt (h.given n s hn).2)
    · exact h.unique n m s t hn hm hid

theorem WF.drop {A : Cat} (h : A.WF) (name : String) : (A.drop name).WF := by
  refine ⟨h.positive, ?_, ?_⟩
  · intro n s hs
    exact h.given n s (tables_drop hs).2
  · intro n m s t hs ht hid
    exact h.unique n m s t (tables_drop hs).2 (tables_drop ht).2 hid

variable {D E : Set String} {A B C : Cat}

theorem Reach.trans (h : Reach D A B) (h' : Reach D B C) : Reach D A C := by
  induction h' with
  | refl => exact h
  | create _ name columns foreign hnew ih => exact ih.create name columns foreign hnew
  | drop _ hname ih => exact ih.drop hname

theorem Reach.mono (h : Reach D A B) (hDE : ∀ n ∈ D, n ∈ E) : Reach E A B := by
  induction h with
  | refl => exact .refl
  | create _ name columns foreign hnew ih => exact ih.create name columns foreign hnew
  | drop _ hname ih => exact ih.drop (hDE _ hname)

theorem Reach.wf (h : Reach D A B) (hA : A.WF) : B.WF := by
  induction h with
  | refl => exact hA
  | create _ name columns foreign _ ih => exact ih.create name columns foreign
  | drop _ _ ih => exact ih.drop _

theorem Reach.next_le (h : Reach D A B) : A.next ≤ B.next := by
  induction h with
  | refl => exact le_refl _
  | create _ _ _ _ _ ih => exact le_succ_of_le ih
  | drop _ _ ih => exact ih

theorem Reach.old_or_new (h : Reach D A B) (hs : B.tables n = some s) :
    A.tables n = some s ∨ A.next ≤ s.id := by
  induction h with
  | refl => exact .inl hs
  | create h' _ _ _ _ ih =>
    obtain ⟨-, rfl⟩ | ⟨-, hold⟩ := tables_create hs
    · exact .inr h'.next_le
    · exact ih hold
  | drop _ _ ih => exact ih (tables_drop hs).2

theorem Reach.stays (h : Reach D A B) (hn : n ∉ D)
    (hs : A.tables n = some s) : B.tables n = some s := by
  induction h with
  | refl => exact hs
  | create _ name _ _ hnew ih =>
    have hne : n ≠ name := by
      rintro rfl
      rw [ih] at hnew
      cases hnew
    rw [tables_create_of_ne hne, ih]
  | @drop _ _ name hname ih =>
    have hne : n ≠ name := fun e => hn (e ▸ hname)
    rw [tables_drop_of_ne hne, ih]

end Cat

/-! ## Keys of the table catalog -/

variable {a : Tag} {n name server : String} {k : Key} {kv : KvStore} {ops : List WriteOp} {A : Cat}
  {columns : List Column} {D : Set String} {α : Type} {fctx : ForeignCtx} {stmt : Ddl}

theorem systemPrefix_ne {b : Tag} (hab : a ≠ b) (x y : Key) :
    systemPrefix a.text ++ x ≠ systemPrefix b.text ++ y := by
  intro h
  refine hab (Tag.eq_of_take ?_)
  rw [← Tag.take_append a x, h, Tag.take_append]

theorem catalogKey_inj {m : String} (h : catalogKey n = catalogKey m) : n = m :=
  utf8_inj (append_cancel_left h)

def TableKey (k : Key) : Prop := k = metaNextTableIdKey ∨ ∃ n, k = catalogKey n

theorem catalogKey_ne_meta (n : String) : catalogKey n ≠ metaNextTableIdKey :=
  systemPrefix_ne (a := .catalog) (b := .metadata) (by decide) _ _

theorem not_tableKey_of_tag (hcat : a ≠ .catalog) (hmeta : a ≠ .metadata) (x : Key) :
    ¬TableKey (systemPrefix a.text ++ x) := by
  rintro (h | ⟨n, h⟩)
  · exact systemPrefix_ne (b := .metadata) hmeta _ _ h
  · exact systemPrefix_ne (b := .catalog) hcat _ _ h

theorem not_tableKey_row {t : TableId} (hpos : 1 ≤ t) (ht : t < 256 ^ 4)
    (hk : tablePrefix t <+: k) : ¬TableKey k := by
  obtain ⟨rest, rfl⟩ := hk
  have hne : ∀ x : Key, tablePrefix t ++ rest ≠ BigEndian.bytes 4 systemTableId ++ x := by
    intro x h
    rw [tablePrefix, append_assoc] at h
    have heq := ByteOrder.bytes_inj ht (by decide) (append_inj h (by simp)).1
    rw [heq] at hpos
    exact absurd hpos (by decide)
  rintro (h | ⟨n, h⟩)
  · rw [metaNextTableIdKey, systemPrefix, append_assoc, append_assoc] at h
    exact hne _ h
  · rw [catalogKey, systemPrefix, append_assoc, append_assoc] at h
    exact hne _ h

/-! ## Stores -/

theorem getElem?_write (kv : KvStore) (op : WriteOp) (k : Key) : (kv.write op)[k]? =
      if k = op.key then (match op with | .put _ v => some v | .delete _ => none) else kv[k]? := by
  cases op with
  | put key value => exact OrderedMap.getElem?_insert_eq kv key k value
  | delete key => exact OrderedMap.getElem?_erase_eq kv key k

theorem getElem?_write_of_ne {op : WriteOp} (h : k ≠ op.key) : (kv.write op)[k]? = kv[k]? := by
  rw [getElem?_write, if_neg h]

theorem getElem?_writeBatch_of_ne
    (h : ∀ op ∈ ops, op.key ≠ k) : (kv.writeBatch ops)[k]? = kv[k]? := by
  induction ops generalizing kv with
  | nil => rfl
  | cons op ops ih =>
    change ((kv.write op).writeBatch ops)[k]? = _
    rw [ih fun o ho => h o (mem_cons_of_mem _ ho),
      getElem?_write_of_ne (h op mem_cons_self).symm]

def SameTables (kv kv' : KvStore) : Prop := ∀ k, TableKey k → kv'[k]? = kv[k]?

theorem sameTables_writeBatch
    (h : ∀ op ∈ ops, ¬TableKey op.key) : SameTables kv (kv.writeBatch ops) := by
  intro k hk
  exact getElem?_writeBatch_of_ne fun op hop he => h op hop (he ▸ hk)

def Schema.bytes (s : Schema) : Value := serializeSchema s.id s.columns s.foreign

def Schema.Fits (s : Schema) : Prop :=
  s.id < 256 ^ 4 ∧ FitsColumns s.columns ∧ FitsForeign s.foreign

/-- The store's records are those of the catalog. -/
structure Represents (kv : KvStore) (A : Cat) : Prop where
  tables : ∀ n, kv[catalogKey n]? = (A.tables n).map Schema.bytes
  next : readNextTableId kv = .ok A.next
  fits : ∀ n s, A.tables n = some s → s.Fits

theorem Represents.same {kv' : KvStore} (h : Represents kv A)
    (hsame : SameTables kv kv') : Represents kv' A := by
  refine ⟨?_, ?_, h.fits⟩
  · intro n
    rw [hsame _ (.inr ⟨n, rfl⟩), h.tables]
  · rw [readNextTableId, hsame _ (.inl rfl)]
    exact h.next

theorem Represents.getTable (h : Represents kv A) {s : Schema} (hs : A.tables n = some s) :
    getTable kv n = .ok ⟨s.id, n, s.columns, s.foreign⟩ := by
  have hget : kv[catalogKey n]? = some s.bytes := by
    rw [h.tables, hs]
    rfl
  obtain ⟨hid, hcols, hforeign⟩ := h.fits n s hs
  rw [Catalog.getTable, hget]
  simp only [Schema.bytes, deserializeSchema_serializeSchema hid hcols hforeign]
  rfl

theorem Represents.tables_of_getTable (h : Represents kv A)
    {t : Table} (ht : Catalog.getTable kv n = .ok t) :
    A.tables n = some ⟨t.id, t.columns, t.foreign⟩ := by
  cases hs : A.tables n with
  | none =>
    have hget : kv[catalogKey n]? = none := by
      rw [h.tables, hs]
      rfl
    rw [Catalog.getTable, hget] at ht
    cases ht
  | some =>
    rw [h.getTable hs] at ht
    cases ht
    rfl

/-! ## Creating and dropping -/

theorem Represents.create (h : Represents kv A) {foreign : Option ForeignTableMeta} (hcols : FitsColumns columns)
    (hforeign : FitsForeign foreign) (hroom : A.next + 1 < 256 ^ 4) :
    Represents (kv.writeBatch (tableOps A.next name columns foreign))
      (A.create name columns foreign) := by
  have hseq : ∀ k, TableKey k → k ≠ seqKey A.next := by
    rintro k hk rfl
    exact not_tableKey_of_tag (a := .seq) (by decide) (by decide) _ hk
  have hget : ∀ k, TableKey k → (kv.writeBatch (tableOps A.next name columns foreign))[k]? =
      if k = metaNextTableIdKey then some (u32Bytes (A.next + 1))
      else if k = catalogKey name then some (serializeSchema A.next columns foreign)
      else kv[k]? := by
    intro k hk
    simp only [KvStore.writeBatch, tableOps, foldl_cons, foldl_nil, getElem?_write,
      WriteOp.key, if_neg (hseq k hk)]
    rfl
  refine ⟨?_, ?_, ?_⟩
  · intro n
    rw [hget _ (.inr ⟨n, rfl⟩), if_neg (catalogKey_ne_meta n)]
    by_cases hn : n = name
    · subst hn
      rw [if_pos rfl, Cat.tables_create_self]
      rfl
    · rw [if_neg fun e => hn (catalogKey_inj e), Cat.tables_create_of_ne hn, h.tables]
  · rw [readNextTableId, hget _ (.inl rfl), if_pos rfl]
    change (if (u32Bytes (A.next + 1)).length < 4 then _ else _) = _
    rw [u32Bytes, BigEndian.length_bytes, if_neg (by decide),
      take_of_length_le (by rw [BigEndian.length_bytes]), BigEndian.value_bytes_of_lt hroom]
    rfl
  · intro n s hs
    obtain ⟨-, rfl⟩ | ⟨-, hold⟩ := Cat.tables_create hs
    · exact ⟨lt_of_succ_lt hroom, hcols, hforeign⟩
    · exact h.fits n s hold

theorem Represents.drop (h : Represents kv A) (hA : A.WF) (hops : dropTableOps kv name = .ok ops) :
    Represents (kv.writeBatch ops) (A.drop name) := by
  cases ht : Catalog.getTable kv name with
  | error =>
    rw [dropTableOps, ht] at hops
    cases hops
  | ok t =>
    have hs := h.tables_of_getTable ht
    obtain ⟨hpos, -⟩ := hA.given _ _ hs
    obtain ⟨hid, -⟩ := h.fits _ _ hs
    rw [dropTableOps, ht] at hops
    cases hops
    have hrest : SameTables (kv.write (.delete (catalogKey name)))
        ((kv.write (.delete (catalogKey name))).writeBatch (.delete (seqKey t.id) ::
          (scanPrefix kv (tablePrefix t.id)).map fun row => .delete row.1)) := by
      refine sameTables_writeBatch fun op hop => ?_
      obtain rfl | hop := mem_cons.mp hop
      · exact not_tableKey_of_tag (a := .seq) (by decide) (by decide) _
      · obtain ⟨row, hrow, rfl⟩ := List.mem_map.mp hop
        exact not_tableKey_row hpos hid (mem_scanPrefix.mp hrow).2
    have hdeleted : Represents (kv.write (.delete (catalogKey name))) (A.drop name) := by
      refine ⟨?_, ?_, ?_⟩
      · intro n
        by_cases hn : n = name
        · subst hn
          rw [getElem?_write, Cat.tables_drop_self]
          exact if_pos rfl
        · have hne : catalogKey n ≠ (WriteOp.delete (catalogKey name)).key :=
            fun e => hn (catalogKey_inj e)
          rw [getElem?_write_of_ne hne, Cat.tables_drop_of_ne hn, h.tables]
      · have hne : metaNextTableIdKey ≠ (WriteOp.delete (catalogKey name)).key :=
          (catalogKey_ne_meta name).symm
        rw [readNextTableId, getElem?_write_of_ne hne]
        exact h.next
      · intro n s hs'
        exact h.fits n s (Cat.tables_drop hs').2
    exact hdeleted.same hrest

/-! ## Statements -/

/-- The catalog of the store is one that statements dropping only `D` can reach. -/
def Reaches (D : Set String) (A : Cat) (kv : KvStore) : Prop :=
  ∃ B, Represents kv B ∧ Cat.Reach D A B

theorem Reaches.refl (h : Represents kv A) : Reaches D A kv :=
  ⟨A, h, .refl⟩

theorem createObject_run (key : Key) (shown : String) (value : Value) (kv : KvStore) :
    createObject key shown value kv =
      if (kv[key]?).isSome then (.error (.duplicateObject shown), kv)
      else (.ok (), kv.writeBatch [.put key value]) := by
  rw [createObject, bind_run]
  change (ite _ _ _ : Writes Unit) kv = _
  split_ifs <;> rfl

theorem createObject_same {key : Key} (hkey : ¬TableKey key) (shown : String) (value : Value)
    (kv : KvStore) : SameTables kv (createObject key shown value kv).2 := by
  rw [createObject_run]
  split_ifs
  · exact fun _ _ => rfl
  · refine sameTables_writeBatch fun op hop => ?_
    rw [mem_singleton.mp hop]
    exact hkey

theorem readM_run (f : KvStore → Except CatalogError α) (kv : KvStore) :
    readM f kv = (f kv, kv) := by
  rw [readM, bind_run]
  change (MonadExcept.ofExcept (f kv) : Writes α) kv = _
  cases f kv <;> rfl

theorem readM_writeBatchM_run (f : KvStore → Except CatalogError α)
    (ops : α → List WriteOp) (kv : KvStore) : (readM f >>= fun a => writeBatchM (ops a)) kv =
      match f kv with
      | .ok a => (.ok (), kv.writeBatch (ops a))
      | .error e => (.error e, kv) := by
  rw [bind_run, readM_run]
  cases f kv <;> rfl

theorem dropObject_same {f : KvStore → Except CatalogError α} {key : Key}
    (hkey : ¬TableKey key) (kv : KvStore) :
    SameTables kv ((readM f >>= fun _ => writeBatchM [.delete key]) kv).2 := by
  rw [readM_writeBatchM_run f fun _ => [.delete key]]
  cases f kv with
  | error => exact fun _ _ => rfl
  | ok =>
    refine sameTables_writeBatch fun op hop => ?_
    rw [mem_singleton.mp hop]
    exact hkey

theorem dropTable_reaches (h : Represents kv A) (hA : A.WF)
    (name : String) : Reaches {name} A (dropTable name kv).2 := by
  rw [dropTable, readM_writeBatchM_run _ fun ops => ops]
  cases hops : dropTableOps kv name with
  | error => exact .refl h
  | ok => exact ⟨_, h.drop hA hops, .drop .refl rfl⟩

theorem short_of_getServer {srv : ForeignServer}
    (h : getServer kv name = .ok srv) : Short srv.name := by
  cases hget : kv[serverKey name]? with
  | none =>
    rw [getServer, hget] at h
    cases h
  | some bytes =>
    rw [getServer, hget] at h
    change lift (deserializeServer bytes) = _ at h
    rw [deserializeServer, deserialize, StateT.run] at h
    generalize hread : readServer bytes = read at h
    cases read with
    | error => cases h
    | ok p =>
      obtain ⟨srv', rest⟩ := p
      cases h
      obtain ⟨n, cur₁, hname, hread⟩ := Reading.bind_ok hread
      obtain ⟨w, cur₂, -, hread⟩ := Reading.bind_ok hread
      obtain ⟨o, cur₃, -, hread⟩ := Reading.bind_ok hread
      cases hread
      exact short_of_readString hname

theorem createForeignTable_run (h : Represents kv A) (name : String)
    (columns : List Column) (server : String) (options : Options) :
    (createForeignTable name columns server options kv).2 = kv ∨
      A.tables name = none ∧ (createForeignTable name columns server options kv).2 =
        kv.writeBatch (tableOps A.next name (envelopeColumns ++ columns)
          (some ⟨server, options⟩)) := by
  rw [createForeignTable, bind_run, readM_run]
  cases getServer kv server with
  | error => exact .inl rfl
  | ok =>
    change (((get : Writes KvStore) >>= _) kv).2 = _ ∨ _ ∧ (((get : Writes KvStore) >>= _) kv).2 = _
    rw [bind_run]
    change ((ite _ _ _ : Writes TableId) kv).2 = _ ∨ _ ∧ ((ite _ _ _ : Writes TableId) kv).2 = _
    split_ifs with htaken
    · exact .inl rfl
    · refine .inr ⟨?_, ?_⟩
      · rw [h.tables] at htaken
        cases hs : A.tables name with
        | none => rfl
        | some =>
          rw [hs] at htaken
          exact absurd rfl htaken
      · change (((readM readNextTableId : Writes TableId) >>= _) kv).2 = _
        rw [bind_run, readM_run, h.next]
        rfl

/-- What a foreign table brings must fit its fields. -/
def FitsTable (columns : List Column) (server : String) (options : Options) : Prop :=
  FitsColumns (envelopeColumns ++ columns) ∧ Short server ∧ ShortOptions options

theorem createForeignTable_reaches (h : Represents kv A) (name : String)
    {options : Options} (hfits : FitsTable columns server options) (hroom : A.next + 1 < 256 ^ 4) :
    ∃ B, Represents (createForeignTable name columns server options kv).2 B ∧
      Cat.Reach D A B ∧ B.next ≤ A.next + 1 := by
  obtain hsame | ⟨hnew, hwrite⟩ := createForeignTable_run h name columns server options
  · rw [hsame]
    exact ⟨A, h, .refl, le_succ _⟩
  · rw [hwrite]
    exact ⟨_, h.create hfits.1 hfits.2 hroom, .create .refl _ _ _ hnew, le_refl _⟩

theorem importTables_reaches (tables : List ImportedTable) (h : Represents kv A)
    (hfits : ∀ t ∈ tables, FitsTable t.columns server t.options)
    (hroom : A.next + tables.length < 256 ^ 4) : Reaches D A (((tables.forM fun table => do
      let _ ← Exec.ofWrites (createForeignTable table.name table.columns server table.options)) :
        Exec PUnit) kv).2 := by
  induction tables generalizing kv A with
  | nil => exact .refl h
  | cons t tables ih =>
    rw [length_cons] at hroom
    obtain ⟨B, hB, hreach, hnext⟩ := createForeignTable_reaches (D := D) h t.name
      (hfits t mem_cons_self) (by omega)
    change Reaches D A (((Exec.ofWrites (createForeignTable t.name t.columns server t.options) >>=
      fun _ => pure PUnit.unit) >>= fun _ => List.forM tables _ : Exec PUnit) kv).2
    rw [bind_run, bind_run, Exec.ofWrites]
    generalize createForeignTable t.name t.columns server t.options kv = run at hB
    obtain ⟨result, kv'⟩ := run
    cases result with
    | error => exact ⟨B, hB, hreach⟩
    | ok id =>
      obtain ⟨C, hC, hreach'⟩ := ih hB (fun u hu => hfits u (mem_cons_of_mem _ hu)) (by omega)
      exact ⟨C, hC, hreach.trans hreach'⟩

/-- The committer of a range. It may merge a put on a counter or on the commit log with what is
stored there; every other key is written as the batch says. -/
structure RangeCommitter where
  apply : Committer
  plain : ∀ kv ops k, isCounterKey k = false → isClogKey k = false →
    (apply kv ops)[k]? = (kv.writeBatch ops)[k]?

theorem eq_seq_of_isSeqKey {x : Key} (h : isSeqKey (systemPrefix a.text ++ x) = true) :
    a = .seq := by
  rw [isSeqKey, Bool.and_eq_true, beq_iff_eq, beq_iff_eq] at h
  refine Tag.eq_of_take ?_
  have hlen : min 6 ((seqKey 0).length - 4) = 6 := by decide
  have htake := congrArg (List.take 6) h.2
  rw [take_take, take_take, hlen, Tag.take_append] at htake
  exact htake.trans (Tag.take_append .seq _)

theorem eq_clog_of_isClogKey {x : Key} (h : isClogKey (systemPrefix a.text ++ x) = true) :
    a = .clog := by
  rw [isClogKey, Bool.and_eq_true, beq_iff_eq] at h
  refine Tag.eq_of_take ?_
  have hlen : min 6 clogPrefix.length = 6 := by decide
  have htake := congrArg (List.take 6) h.2
  rwa [take_take, hlen, Tag.take_append] at htake

theorem plain_of_tag (hseq : a ≠ .seq) (hclog : a ≠ .clog) (hmeta : a ≠ .metadata)
    (x : Key) : isCounterKey (systemPrefix a.text ++ x) = false ∧
      isClogKey (systemPrefix a.text ++ x) = false := by
  have hxid : systemPrefix a.text ++ x ≠ nextXidKey := systemPrefix_ne (b := .metadata) hmeta _ _
  have hnot : isSeqKey (systemPrefix a.text ++ x) = false :=
    Bool.eq_false_iff.mpr fun h => hseq (eq_seq_of_isSeqKey h)
  refine ⟨?_, Bool.eq_false_iff.mpr fun h => hclog (eq_clog_of_isClogKey h)⟩
  rw [isCounterKey, hnot, beq_false_of_ne hxid]
  rfl

theorem plain_of_tableKey (h : TableKey k) : isCounterKey k = false ∧ isClogKey k = false := by
  obtain rfl | ⟨n, rfl⟩ := h
  · decide
  · exact plain_of_tag (a := .catalog) (by decide) (by decide) (by decide) _

theorem RangeCommitter.same (C : RangeCommitter) (kv : KvStore) (ops : List WriteOp) :
    SameTables (kv.writeBatch ops) (C.apply kv ops) := by
  intro k hk
  obtain ⟨hcounter, hclog⟩ := plain_of_tableKey hk
  exact C.plain kv ops k hcounter hclog

/-- What a statement brings fits its fields, and there are ids for the tables it creates. -/
def Ddl.Fits (fctx : ForeignCtx) (next : ℕ) : Ddl → Prop
  | .createTable _ columns => FitsColumns columns ∧ next + 1 < 256 ^ 4
  | .createForeignTable _ columns server options =>
    FitsTable columns server options ∧ next + 1 < 256 ^ 4
  | .importForeignSchema selector _ => ∀ scanner srv mapping tables,
    fctx.scanner = some scanner → Short srv.name → scanner srv mapping selector = .ok tables →
      (∀ t ∈ tables, FitsTable t.columns srv.name t.options) ∧ next + tables.length < 256 ^ 4
  | _ => True

def Ddl.drops : Ddl → Set String
  | .dropTable name | .dropForeignTable name _ => {name}
  | _ => ∅

theorem snd_ignoreMissing (m : Writes Unit) (b : Bool) (kv : KvStore) :
    (ignoreMissing m b kv).2 = (m kv).2 := by
  rw [ignoreMissing]
  generalize m kv = run
  obtain ⟨result, kv'⟩ := run
  cases result with
  | ok => rfl
  | error e => cases e <;> rfl

theorem snd_ignoreMissingTable (m : Writes Unit) (b : Bool) (kv : KvStore) :
    (ignoreMissingTable m b kv).2 = (m kv).2 := by
  rw [ignoreMissingTable]
  generalize m kv = run
  obtain ⟨result, kv'⟩ := run
  cases result with
  | ok => rfl
  | error e => cases e <;> rfl

theorem snd_bind_pure {ε β : Type} (m : ExceptT ε (StateM KvStore) α) (b : β) (kv : KvStore) :
    ((m >>= fun _ => pure b) kv).2 = (m kv).2 := by
  rw [bind_run]
  generalize m kv = run
  obtain ⟨result, kv'⟩ := run
  cases result <;> rfl

theorem importForeignSchema_reaches (h : Represents kv A) {selector : ImportFilter}
    (hfits : (Ddl.importForeignSchema selector server).Fits fctx A.next) :
    Reaches D A (importForeignSchema fctx selector server kv).2 := by
  rw [importForeignSchema, bind_run, Exec.ofWrites, readM_run]
  cases hsrv : getServer kv server with
  | error => exact .refl h
  | ok srv =>
    change Reaches D A (((get : Exec KvStore) >>= _) kv).2
    rw [bind_run]
    cases hscan : fctx.scanner with
    | none => exact .refl h
    | some scanner =>
      change Reaches D A (((MonadExcept.ofExcept
        (scanner srv (getUserMapping kv fctx.currentUser server).toOption selector) : Exec _) >>=
          _) kv).2
      rw [bind_run]
      cases htables : scanner srv (getUserMapping kv fctx.currentUser server).toOption selector with
      | error => exact .refl h
      | ok tables =>
        obtain ⟨hall, hroom⟩ := hfits scanner srv _ tables hscan (short_of_getServer hsrv) htables
        exact importTables_reaches tables h hall hroom

theorem executeDdl_reaches (h : Represents kv A) (hA : A.WF) (hfits : stmt.Fits fctx A.next) :
    Reaches stmt.drops A (executeDdl fctx stmt kv).2 := by
  cases stmt with
  | createTable | dropTable =>
    rw [executeDdl_table fctx rfl]
    exact .refl h
  | alterServer | alterUserMapping => exact .refl h
  | createFdw =>
    rw [executeDdl, snd_bind_pure]
    exact .refl (h.same (createObject_same
      (not_tableKey_of_tag (a := .fdw) (by decide) (by decide) _) _ _ kv))
  | createServer =>
    rw [executeDdl, snd_bind_pure]
    exact .refl (h.same (createObject_same
      (not_tableKey_of_tag (a := .fsrv) (by decide) (by decide) _) _ _ kv))
  | createUserMapping =>
    rw [executeDdl, snd_bind_pure]
    refine .refl (h.same (createObject_same ?_ _ _ kv))
    rw [userMappingKey, append_assoc, append_assoc]
    exact not_tableKey_of_tag (a := .umap) (by decide) (by decide) _
  | dropFdw =>
    rw [executeDdl, snd_bind_pure, snd_ignoreMissing]
    exact .refl (h.same (dropObject_same
      (not_tableKey_of_tag (a := .fdw) (by decide) (by decide) _) kv))
  | dropServer =>
    rw [executeDdl, snd_bind_pure, snd_ignoreMissing]
    exact .refl (h.same (dropObject_same
      (not_tableKey_of_tag (a := .fsrv) (by decide) (by decide) _) kv))
  | dropUserMapping =>
    rw [executeDdl, snd_bind_pure, snd_ignoreMissing]
    refine .refl (h.same (dropObject_same ?_ kv))
    rw [userMappingKey, append_assoc, append_assoc]
    exact not_tableKey_of_tag (a := .umap) (by decide) (by decide) _
  | createForeignTable name =>
    rw [executeDdl, snd_bind_pure]
    obtain ⟨B, hB, hreach, -⟩ := createForeignTable_reaches h name hfits.1 hfits.2
    exact ⟨B, hB, hreach⟩
  | dropForeignTable name =>
    rw [executeDdl, snd_bind_pure, snd_ignoreMissingTable]
    exact dropTable_reaches h hA name
  | importForeignSchema =>
    rw [executeDdl, snd_bind_pure]
    exact importForeignSchema_reaches h hfits

theorem createTableOps_ok (h : Represents kv A) {r : TableId × List WriteOp}
    (hcreate : createTableOps kv name columns = .ok r) :
    A.tables name = none ∧ r = (A.next, tableOps A.next name columns none) := by
  rw [createTableOps] at hcreate
  cases hs : A.tables name with
  | some =>
    have hget : (kv[catalogKey name]?).isSome = true := by
      rw [h.tables, hs]
      rfl
    rw [if_pos hget] at hcreate
    cases hcreate
  | none =>
    have hget : ¬(kv[catalogKey name]?).isSome = true := by
      rw [h.tables, hs]
      exact Bool.false_ne_true
    rw [if_neg hget, h.next] at hcreate
    cases hcreate
    exact ⟨rfl, rfl⟩

theorem commit_reaches (C : RangeCommitter)
    (h : Represents kv A) (hA : A.WF) (htable : stmt.isTable = true)
    (hfits : stmt.Fits fctx A.next) {tag : String}
    (hok : (executeDdl fctx stmt kv).1 = .ok (tag, ops)) :
    Reaches stmt.drops A (C.apply kv ops) := by
  cases stmt with
  | createTable name columns =>
    rw [executeDdl_createTable] at hok
    cases hcreate : createTableOps kv name columns with
    | error =>
      rw [hcreate] at hok
      cases hok
    | ok =>
      rw [hcreate] at hok
      cases hok
      obtain ⟨hnew, rfl⟩ := createTableOps_ok h hcreate
      have hnone : FitsForeign none := trivial
      exact ⟨_, (h.create hfits.1 hnone hfits.2).same (C.same kv _), .create .refl _ _ _ hnew⟩
  | dropTable name =>
    rw [executeDdl_dropTable] at hok
    cases hdrop : dropTableOps kv name with
    | error =>
      rw [hdrop] at hok
      cases hok
    | ok =>
      rw [hdrop] at hok
      cases hok
      exact ⟨_, (h.drop hA hdrop).same (C.same kv _), .drop .refl rfl⟩
  | createFdw | dropFdw | createServer | alterServer | dropServer | createUserMapping
  | alterUserMapping | dropUserMapping | createForeignTable | dropForeignTable
  | importForeignSchema => cases htable

/-- A DDL statement takes a store that represents a catalog to one that represents a catalog
reached by creating tables and dropping those it names. -/
theorem runDdl_reaches (C : RangeCommitter)
    (h : Represents kv A) (hA : A.WF) (hfits : stmt.Fits fctx A.next)
    (accepts : Bool) : Reaches stmt.drops A (runDdl C.apply fctx accepts stmt kv).2 := by
  obtain ⟨B, hB, hreach⟩ := executeDdl_reaches h hA hfits
  rw [runDdl_eq]
  cases hrun : executeDdl fctx stmt kv with
  | mk result kv' =>
    rw [hrun] at hB
    cases result with
    | error => exact ⟨B, hB, hreach⟩
    | ok r =>
      cases accepts with
      | false => exact ⟨B, hB, hreach⟩
      | true =>
        have hok : (executeDdl fctx stmt kv).1 = .ok (r.1, r.2) := congrArg Prod.fst hrun
        cases htable : stmt.isTable with
        | true =>
          have hkv : kv' = kv := by
            have hsame := executeDdl_table fctx htable kv
            rwa [hrun] at hsame
          subst hkv
          exact commit_reaches C h hA htable hfits hok
        | false =>
          -- nothing is left for the committer
          have hnil := executeDdl_foreign fctx htable hok
          change Reaches _ A (C.apply kv' r.2)
          rw [hnil]
          exact ⟨B, hB.same (C.same kv' []), hreach⟩

theorem runDdl_createTable (C : RangeCommitter)
    (h : Represents kv A) {accepts : Bool} {tag : String}
    (hcols : FitsColumns columns) (hroom : A.next + 1 < 256 ^ 4)
    (hok : (runDdl C.apply fctx accepts (.createTable name columns) kv).1 = .ok tag) :
    getTable (runDdl C.apply fctx accepts (.createTable name columns) kv).2 name =
      .ok ⟨A.next, name, columns, none⟩ := by
  rw [runDdl_eq, executeDdl_createTable] at hok ⊢
  cases hcreate : createTableOps kv name columns with
  | error =>
    rw [hcreate] at hok
    cases hok
  | ok =>
    rw [hcreate] at hok
    obtain ⟨hnew, rfl⟩ := createTableOps_ok h hcreate
    cases accepts with
    | false => cases hok
    | true =>
      have hnone : FitsForeign none := trivial
      have hafter := (h.create hcols hnone hroom).same
        (C.same kv (tableOps A.next name columns none))
      exact hafter.getTable Cat.tables_create_self

end Crabgresql.Catalog
