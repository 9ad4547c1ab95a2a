import Crabgresql.Lib.Reading
import Crabgresql.Replica.Layout
import Crabgresql.Pgtypes

/-!
# Catalog records and their bytes

A table's schema is a version byte, the table id, the columns and a flag that says
whether the metadata of a foreign table follows. Wrappers, servers and user
mappings are strings and a list of options. Every string and every list carries
its length.
-/

namespace Crabgresql.Catalog

open Mvcc Replica Pgtypes List BigEndian Reading

abbrev Options := List (String × String)

structure Column where
  name : String
  ty : ColumnType
  deriving DecidableEq

structure ForeignTableMeta where
  server : String
  options : Options
  deriving DecidableEq

structure ForeignDataWrapper where
  name : String
  options : Options
  deriving DecidableEq

structure ForeignServer where
  name : String
  wrapper : String
  options : Options
  deriving DecidableEq

structure UserMapping where
  user : String
  server : String
  options : Options
  deriving DecidableEq

structure Table where
  id : TableId
  name : String
  columns : List Column
  /-- Present when the table is a foreign table. -/
  foreign : Option ForeignTableMeta
  deriving DecidableEq

/-! ## Writing -/

def schemaVersion : UInt8 := 2

def u32Bytes (n : ℕ) : Value := bytes 4 n

def writeType : ColumnType → Value
  | .bool => [0]
  | .int4 => [1]
  | .int8 => [2]
  | .text => [3]
  | .float8 => [4]
  | .numeric none => [5, 0]
  | .numeric (some t) => [5, 1] ++ bytes 2 t.precision ++ bytes 2 t.scale
  | .date => [6]
  -- the second byte is reserved for a precision
  | .time => [7, 0]
  | .timestamp => [8, 0]
  | .timestamptz => [9, 0]
  | .interval => [10, 0]
  | .bytea => [11]

def writeStr (s : String) : Value := u32Bytes (utf8 s).length ++ utf8 s

def writeOptions (opts : Options) : Value :=
  u32Bytes opts.length ++ opts.flatMap fun o => writeStr o.1 ++ writeStr o.2

def serializeSchema (tableId : TableId) (columns : List Column)
    (foreign : Option ForeignTableMeta) : Value :=
  [schemaVersion] ++ u32Bytes tableId ++ u32Bytes columns.length ++
    columns.flatMap (fun c => writeStr c.name ++ writeType c.ty) ++
    match foreign with
    | none => [0]
    | some m => [1] ++ writeStr m.server ++ writeOptions m.options

def serializeFdw (name : String) (options : Options) : Value :=
  writeStr name ++ writeOptions options

def serializeServer (name wrapper : String) (options : Options) : Value :=
  writeStr name ++ writeStr wrapper ++ writeOptions options

def serializeUserMapping (user server : String) (options : Options) : Value :=
  writeStr user ++ writeStr server ++ writeOptions options

/-! ## Reading -/

abbrev Reader := StateT Value (Except KvError)

def corrupt {α : Type} (message : String) : Reader α := throw (.corruptRow message)

def takeU8 : Reader UInt8 := fun cur =>
  match cur with
  | [] => .error (.corruptRow "truncated schema")
  | b :: rest => .ok (b, rest)

def takeN (n : ℕ) : Reader Value := fun cur =>
  if cur.length < n then .error (.corruptRow "truncated schema field")
  else .ok (cur.take n, cur.drop n)

def takeNat (n : ℕ) : Reader ℕ := value <$> takeN n

/-- A type whose precision byte is reserved. -/
def reserved (ty : ColumnType) : Reader ColumnType := do
  let b ← takeU8
  if b ≠ 0 then corrupt "unsupported datetime precision" else pure ty

def readType : Reader ColumnType := do
  let tag ← takeU8
  match tag with
  | 0 => pure .bool
  | 1 => pure .int4
  | 2 => pure .int8
  | 3 => pure .text
  | 4 => pure .float8
  | 5 =>
    let flag ← takeU8
    if flag = 1 then
      let precision ← takeNat 2
      let scale ← takeNat 2
      pure (.numeric (some ⟨precision, scale⟩))
    else pure (.numeric none)
  | 6 => pure .date
  | 7 => reserved .time
  | 8 => reserved .timestamp
  | 9 => reserved .timestamptz
  | 10 => reserved .interval
  | 11 => pure .bytea
  | other =>
    let n := other.toNat
    corrupt s!"unknown column type tag {n}"

def readString : Reader String := do
  let len ← takeNat 4
  let bytes ← takeN len
  match String.fromUTF8? ⟨bytes.toArray⟩ with
  | some s => pure s
  | none => corrupt "non-UTF-8 string in catalog"

def readTimes {α : Type} (read : Reader α) : ℕ → Reader (List α)
  | 0 => pure []
  | n + 1 => do
    let a ← read
    let rest ← readTimes read n
    pure (a :: rest)

def readOptions : Reader Options := do
  let n ← takeNat 4
  readTimes (do
    let k ← readString
    let v ← readString
    pure (k, v)) n

def readSchema : Reader (TableId × List Column × Option ForeignTableMeta) := do
  let version ← takeU8
  if version ≠ schemaVersion then
    let n := version.toNat
    corrupt s!"unknown schema version {n}"
  else
    let tableId ← takeNat 4
    let ncols ← takeNat 4
    let columns ← readTimes (do
      let name ← readString
      let ty ← readType
      pure (⟨name, ty⟩ : Column)) ncols
    let flag ← takeU8
    match flag with
    | 0 => pure (tableId, columns, none)
    | 1 =>
      let server ← readString
      let options ← readOptions
      pure (tableId, columns, some ⟨server, options⟩)
    | other =>
      let n := other.toNat
      corrupt s!"unknown foreign flag {n}"

def readFdw : Reader ForeignDataWrapper := do
  let name ← readString
  let options ← readOptions
  pure ⟨name, options⟩

def readServer : Reader ForeignServer := do
  let name ← readString
  let wrapper ← readString
  let options ← readOptions
  pure ⟨name, wrapper, options⟩

def readUserMapping : Reader UserMapping := do
  let user ← readString
  let server ← readString
  let options ← readOptions
  pure ⟨user, server, options⟩

/-- Bytes after the record are not looked at. -/
def deserialize {α : Type} (read : Reader α) (bytes : Value) : Except KvError α :=
  Prod.fst <$> read.run bytes

def deserializeSchema : Value → Except KvError (TableId × List Column × Option ForeignTableMeta) :=
  deserialize readSchema

def deserializeFdw : Value → Except KvError ForeignDataWrapper := deserialize readFdw

def deserializeServer : Value → Except KvError ForeignServer := deserialize readServer

def deserializeUserMapping : Value → Except KvError UserMapping := deserialize readUserMapping

/-! ## Reading back a schema -/

open Reading (Reads)

theorem reads_takeU8 (b : UInt8) : Reads takeU8 [b] b := fun _ => rfl

theorem reads_takeN (bs : Value) : Reads (takeN bs.length) bs bs := by
  intro rest
  rw [takeN, if_neg (by simp), take_left, drop_left]

theorem reads_takeNat {w n : ℕ} (h : n < 256 ^ w) : Reads (takeNat w) (bytes w n) n := by
  have hread := (reads_takeN (bytes w n)).map value
  rwa [length_bytes, value_bytes_of_lt h] at hread

def Short (s : String) : Prop := (utf8 s).length < 256 ^ 4

theorem reads_readString {s : String} (h : Short s) : Reads readString (writeStr s) s := by
  refine (reads_takeNat h).bind ((reads_takeN (utf8 s)).bind_pure ?_)
  rw [fromUTF8_utf8]
  exact reads_pure s

theorem short_of_readString {cur rest : Value} {s : String}
    (h : readString cur = .ok (s, rest)) : Short s := by
  obtain ⟨len, cur₁, hlen, h⟩ := bind_ok h
  obtain ⟨bytes, cur₂, hbytes, h⟩ := bind_ok h
  have hlt : len < 256 ^ 4 := by
    obtain ⟨raw, hraw, rfl⟩ : ∃ raw, takeN 4 cur = .ok (raw, cur₁) ∧ value raw = len := by
      change ((fun p => (value p.1, p.2)) <$> takeN 4 cur) = _ at hlen
      generalize takeN 4 cur = read at hlen
      cases read with
      | error => cases hlen
      | ok p =>
        cases hlen
        exact ⟨p.1, rfl, rfl⟩
    rw [takeN] at hraw
    split_ifs at hraw with hshort
    cases hraw
    have hvalue := value_lt (cur.take 4)
    rwa [length_take, Nat.min_eq_left (Nat.le_of_not_lt hshort)] at hvalue
  have hlength : bytes.length = len := by
    rw [takeN] at hbytes
    split_ifs at hbytes with hshort
    cases hbytes
    rw [length_take, Nat.min_eq_left (Nat.le_of_not_lt hshort)]
  have hutf8 : utf8 s = bytes := by
    simp only [String.fromUTF8?] at h
    split_ifs at h with hvalid
    · cases h
      rfl
    · cases h
  rw [Short, hutf8, hlength]
  exact hlt

theorem reads_readTimes {α : Type} {read : Reader α} {write : α → Value} {l : List α}
    (h : ∀ a ∈ l, Reads read (write a) a) :
    Reads (readTimes read l.length) (l.flatMap write) l := by
  induction l with
  | nil => exact reads_pure []
  | cons a l ih =>
    have htail := ih fun b hb => h b (mem_cons_of_mem _ hb)
    exact (h a mem_cons_self).bind (htail.bind_pure (reads_pure (a :: l)))

def ShortOptions (opts : Options) : Prop :=
  opts.length < 256 ^ 4 ∧ ∀ o ∈ opts, Short o.1 ∧ Short o.2

theorem reads_readOptions {opts : Options} (h : ShortOptions opts) :
    Reads readOptions (writeOptions opts) opts := by
  refine (reads_takeNat h.1).bind (reads_readTimes fun o ho => ?_)
  obtain ⟨hk, hv⟩ := h.2 o ho
  exact (reads_readString hk).bind ((reads_readString hv).bind_pure (reads_pure o))

def FitsType : ColumnType → Prop
  | .numeric (some t) => t.precision < 256 ^ 2 ∧ t.scale < 256 ^ 2
  | _ => True

theorem reads_reserved (ty : ColumnType) : Reads (reserved ty) [0] ty :=
  (reads_takeU8 0).bind_pure (reads_pure ty)

theorem reads_readType {ty : ColumnType} (h : FitsType ty) : Reads readType (writeType ty) ty := by
  cases ty with
  | time | timestamp | timestamptz | interval => exact (reads_takeU8 _).bind (reads_reserved _)
  | numeric typmod =>
    cases typmod with
    | none => exact (reads_takeU8 5).bind ((reads_takeU8 0).bind_pure (reads_pure _))
    | some =>
      exact (reads_takeU8 5).bind ((reads_takeU8 1).bind ((reads_takeNat h.1).bind
        ((reads_takeNat h.2).bind_pure (reads_pure _))))
  | _ =>
    exact (reads_takeU8 _).bind_pure (reads_pure _)

def FitsColumns (columns : List Column) : Prop :=
  columns.length < 256 ^ 4 ∧ ∀ c ∈ columns, Short c.name ∧ FitsType c.ty

def FitsForeign : Option ForeignTableMeta → Prop
  | none => True
  | some m => Short m.server ∧ ShortOptions m.options

theorem reads_readSchema {id : TableId} {columns : List Column}
    {foreign : Option ForeignTableMeta} (hid : id < 256 ^ 4) (hcols : FitsColumns columns)
    (hforeign : FitsForeign foreign) :
    Reads readSchema (serializeSchema id columns foreign) (id, columns, foreign) := by
  have hcol : ∀ c ∈ columns, Reads
      (do let name ← readString
          let ty ← readType
          pure (⟨name, ty⟩ : Column)) (writeStr c.name ++ writeType c.ty) c := by
    intro c hc
    obtain ⟨hname, hty⟩ := hcols.2 c hc
    exact (reads_readString hname).bind ((reads_readType hty).bind_pure (reads_pure c))
  cases foreign with
  | none =>
    simp only [serializeSchema, append_assoc]
    exact (reads_takeU8 _).bind ((reads_takeNat hid).bind ((reads_takeNat hcols.1).bind
      ((reads_readTimes hcol).bind ((reads_takeU8 0).bind_pure (reads_pure _)))))
  | some =>
    simp only [serializeSchema, append_assoc]
    exact (reads_takeU8 _).bind ((reads_takeNat hid).bind ((reads_takeNat hcols.1).bind
      ((reads_readTimes hcol).bind ((reads_takeU8 1).bind ((reads_readString hforeign.1).bind
        ((reads_readOptions hforeign.2).bind_pure (reads_pure _)))))))

theorem deserialize_of_reads {α : Type} {read : Reader α} {bs : Value} {a : α}
    (h : Reads read bs a) : deserialize read bs = .ok a := by
  have hrun := h []
  rw [append_nil] at hrun
  rw [deserialize, StateT.run, hrun]
  rfl

theorem deserializeSchema_serializeSchema {id : TableId} {columns : List Column}
    {foreign : Option ForeignTableMeta} (hid : id < 256 ^ 4) (hcols : FitsColumns columns)
    (hforeign : FitsForeign foreign) :
    deserializeSchema (serializeSchema id columns foreign) = .ok (id, columns, foreign) :=
  deserialize_of_reads (reads_readSchema hid hcols hforeign)

/-! ## Records and their prefixes -/

theorem local_takeU8 : Local takeU8 := by
  intro cur a rest h more
  cases cur with
  | nil => cases h
  | cons b cur =>
    cases h
    rfl

theorem local_takeN (n : ℕ) : Local (takeN n) := by
  intro cur a rest h more
  simp only [takeN] at h ⊢
  split_ifs at h with hshort
  cases h
  have hn : n ≤ cur.length := Nat.le_of_not_lt hshort
  rw [if_neg (by simp; omega), take_append_of_le_length hn, drop_append_of_le_length hn]

theorem local_takeNat (n : ℕ) : Local (takeNat n) := (local_takeN n).map value

theorem local_reserved (ty : ColumnType) : Local (reserved ty) := by
  refine local_takeU8.bind fun b => ?_
  split_ifs
  · exact local_throw _
  · exact local_pure ty

theorem local_readType : Local readType := by
  refine local_takeU8.bind fun tag => ?_
  split
  all_goals first
    | exact local_pure _
    | exact local_reserved _
    | exact local_throw _
    | refine local_takeU8.bind fun flag => ?_
  split_ifs
  · exact (local_takeNat 2).bind fun _ => (local_takeNat 2).bind fun _ => local_pure _
  · exact local_pure _

theorem local_readString : Local readString := by
  refine (local_takeNat 4).bind fun len => (local_takeN len).bind fun bytes => ?_
  split
  · exact local_pure _
  · exact local_throw _

theorem local_readTimes {α : Type} {read : Reader α} (h : Local read) (n : ℕ) :
    Local (readTimes read n) := by
  induction n with
  | zero => exact local_pure []
  | succ n ih => exact h.bind fun _ => ih.bind fun _ => local_pure _

theorem local_readOptions : Local readOptions :=
  (local_takeNat 4).bind (local_readTimes
    (local_readString.bind fun _ => local_readString.bind fun _ => local_pure _))

theorem local_readSchema : Local readSchema := by
  refine local_takeU8.bind fun version => ?_
  split_ifs
  · exact local_throw _
  refine (local_takeNat 4).bind fun id => (local_takeNat 4).bind fun ncols =>
    (local_readTimes (local_readString.bind fun name => local_readType.bind fun ty =>
      local_pure _) ncols).bind fun columns => local_takeU8.bind fun flag => ?_
  split
  · exact local_pure _
  · exact local_readString.bind fun _ => local_readOptions.bind fun _ => local_pure _
  · exact local_throw _

/-- The bytes are read as `a`, and nothing is read from a part of them. -/
def RoundTrips {α : Type} (de : Value → Except KvError α) (bs : Value) (a : α) : Prop :=
  de bs = .ok a ∧ ∀ cut, cut <+: bs → cut ≠ bs → ∀ b, de cut ≠ .ok b

theorem roundTrips {α : Type} {read : Reader α} {bs : Value} {a : α} (h : Reads read bs a)
    (hread : Local read) : RoundTrips (deserialize read) bs a := by
  refine ⟨deserialize_of_reads h, fun cut hcut hne b hb => ?_⟩
  rw [deserialize, StateT.run] at hb
  cases hrun : read cut with
  | error e => rw [hrun] at hb; cases hb
  | ok out => exact h.cut hread hcut hne out hrun

theorem fdw_not_read_back {name : String} (h : ¬ Short name) :
    deserializeFdw (serializeFdw name []) ≠ .ok ⟨name, []⟩ := by
  intro hread
  rw [deserializeFdw, deserialize, StateT.run] at hread
  cases hrun : readFdw (serializeFdw name []) with
  | error e => rw [hrun] at hread; cases hread
  | ok out =>
    obtain ⟨w, rest⟩ := out
    rw [hrun] at hread
    obtain ⟨first, cur, hfirst, hthen⟩ := bind_ok hrun
    obtain ⟨options, cur', -, hpure⟩ := bind_ok hthen
    cases hpure
    injection hread with hread
    have hname : first = name := congrArg ForeignDataWrapper.name hread
    exact h (hname ▸ short_of_readString hfirst)

theorem length_utf8_replicate (n : ℕ) :
    (utf8 (String.ofList (List.replicate n 'a'))).length = n := by
  simp [utf8, List.utf8Encode, String.utf8EncodeChar]

end Crabgresql.Catalog
