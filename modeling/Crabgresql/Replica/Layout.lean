import Crabgresql.Lib.ByteOrder
import Crabgresql.Replica.Keys

/-!
# The key layout

Every record of a range lives in one ordered byte space: row versions under
their table, and the system records under table 0 and a tag. The readers rely on
three things: no two records share a key, the byte order of versions and
commit-log entries is the order of their numbers, and a scan by prefix or by
range meets the keys of one kind only.
-/

namespace Crabgresql.Replica

open Mvcc BigEndian ByteOrder List Nat
open Std (ExtTreeMap)

variable {k : LogicalKey} {s : SystemKey} {t : ℕ} {key : Key}

inductive KvError
  | corruptRow (message : String)

/-! ## Encoders -/

def indexPrimary : ℕ := 1

def tablePrefix (t : TableId) : Key := bytes 4 t ++ bytes 4 indexPrimary

def rowKey (t : TableId) (rowid : ℕ) : Key := tablePrefix t ++ bytes 8 rowid

def versionKeyXid (t : TableId) (rowid : ℕ) (x : Xid) : Key := rowKey t rowid ++ bytes 8 x

def metaNextTableIdKey : Key := systemPrefix "meta" ++ ascii "next_table_id"

def metaRangeMapKey : Key := systemPrefix "meta" ++ ascii "range_map"

def clogScanLoKey : Key := systemPrefix "meta" ++ ascii "clog_scan_lo"

def fdwKey (name : String) : Key := systemPrefix "fdw" ++ utf8 name

def serverKey (name : String) : Key := systemPrefix "fsrv" ++ utf8 name

def userMappingKey (user server : String) : Key :=
  systemPrefix "umap" ++ utf8 user ++ [0] ++ utf8 server

def clogScanEnd : Key := clogPrefix.dropLast ++ [clogPrefix.getLastD 0 + 1]

/-- Above every version key: the fifth byte of one is the high byte of the index id. -/
def versionScanEnd : Key := replicate 5 255

/-! ## Decoders -/

def takeU32 (cur : Key) : Except KvError (ℕ × Key) :=
  if 4 ≤ cur.length then .ok (value (cur.take 4), cur.drop 4)
  else .error (.corruptRow "truncated u32 key component")

def takeU64 (cur : Key) : Except KvError (ℕ × Key) :=
  if 8 ≤ cur.length then .ok (value (cur.take 8), cur.drop 8)
  else .error (.corruptRow "truncated u64 key component")

def clogXidOf (key : Key) : Option Xid :=
  let pre := clogPrefix
  if key.length ≠ pre.length + 8 ∨ key.take pre.length ≠ pre then none
  else ((takeU64 (key.drop pre.length)).toOption).map Prod.fst

def tableRowidOf (key : Key) : Option (TableId × ℕ) := do
  let (t, cur) ← (takeU32 key).toOption
  let (idx, cur) ← (takeU32 cur).toOption
  if t = systemTableId ∨ idx ≠ indexPrimary then none
  else
    let (rowid, _) ← (takeU64 cur).toOption
    some (t, rowid)

def rowidOf (table : TableId) (key : Key) : Except KvError ℕ := do
  let (t, cur) ← takeU32 key
  let (idx, cur) ← takeU32 cur
  if t ≠ table ∨ idx ≠ indexPrimary then
    .error (.corruptRow "key does not belong to this table index")
  else
    let (rowid, _) ← takeU64 cur
    .ok rowid

def rowPrefixOf (key : Key) : Except KvError Key :=
  if key.length < 8 then .error (.corruptRow "version key too short")
  else .ok (key.take (key.length - 8))

def xidOfKey (key : Key) : Except KvError Xid :=
  if key.length < 8 then .error (.corruptRow "version key too short")
  else .ok (value (key.drop (key.length - 8)))

/-! ## Logical keys -/

abbrev UserTable := { t : ℕ // 1 ≤ t ∧ t < 256 ^ 4 }

abbrev U64 := { n : ℕ // n < 256 ^ 8 }

abbrev ObjectName := { s : String // (0 : UInt8) ∉ utf8 s }

/-- The tag of a system record. -/
inductive Tag
  | catalog
  | seq
  | metadata
  | fdw
  | fsrv
  | umap
  | clog
  deriving DecidableEq

def Tag.text : Tag → String
  | .catalog => "catalog"
  | .seq => "seq"
  | .metadata => "meta"
  | .fdw => "fdw"
  | .fsrv => "fsrv"
  | .umap => "umap"
  | .clog => "clog"

/-- The single records: the counters, the range map and the recovery watermark. -/
inductive MetaKey
  | nextTableId
  | nextXid
  | nextGlobalXid
  | rangeMap
  | clogScanLo
  deriving DecidableEq

def MetaKey.text : MetaKey → String
  | .nextTableId => "next_table_id"
  | .nextXid => "next_xid"
  | .nextGlobalXid => "next_global_xid"
  | .rangeMap => "range_map"
  | .clogScanLo => "clog_scan_lo"

def MetaKey.encode : MetaKey → Key
  | .nextTableId => metaNextTableIdKey
  | .nextXid => nextXidKey
  | .nextGlobalXid => metaNextGlobalXidKey
  | .rangeMap => metaRangeMapKey
  | .clogScanLo => clogScanLoKey

inductive SystemKey
  | catalog (name : ObjectName)
  | seq (t : UserTable)
  | counter (m : MetaKey)
  | fdw (name : ObjectName)
  | server (name : ObjectName)
  | userMapping (user srv : ObjectName)
  | clog (x : U64)

def SystemKey.encode : SystemKey → Key
  | .catalog name => catalogKey name
  | .seq t => seqKey t
  | .counter m => m.encode
  | .fdw name => fdwKey name
  | .server name => serverKey name
  | .userMapping user srv => userMappingKey user srv
  | .clog x => clogKey x

def SystemKey.tag : SystemKey → Tag
  | .catalog _ => .catalog
  | .seq _ => .seq
  | .counter _ => .metadata
  | .fdw _ => .fdw
  | .server _ => .fsrv
  | .userMapping _ _ => .umap
  | .clog _ => .clog

def SystemKey.body : SystemKey → Key
  | .catalog name | .fdw name | .server name => utf8 name
  | .seq t => bytes 4 t
  | .counter m => ascii m.text
  | .userMapping user srv => utf8 user ++ 0 :: utf8 srv
  | .clog x => bytes 8 x

/-- A record of a range. -/
inductive LogicalKey
  | version (t : UserTable) (rowid x : U64)
  | system (s : SystemKey)

def LogicalKey.encode : LogicalKey → Key
  | .version t rowid x => versionKeyXid t rowid x
  | .system s => s.encode

def LogicalKey.table : LogicalKey → TableId
  | .version t _ _ => t
  | .system _ => systemTableId

theorem SystemKey.encode_eq (s : SystemKey) : s.encode = systemPrefix s.tag.text ++ s.body := by
  cases s with
  | counter m => cases m <;> rfl
  | userMapping =>
    rw [encode, userMappingKey, append_assoc, append_assoc]
    rfl
  | _ => rfl

theorem LogicalKey.encode_eq (k : LogicalKey) : ∃ rest, k.encode = bytes 4 k.table ++ rest := by
  cases k with
  | version t rowid x =>
    refine ⟨bytes 4 indexPrimary ++ (bytes 8 rowid ++ bytes 8 x), ?_⟩
    simp only [encode, table, versionKeyXid, rowKey, tablePrefix, append_assoc]
  | system s =>
    refine ⟨ascii s.tag.text ++ ([47] ++ s.body), ?_⟩
    rw [encode, s.encode_eq, systemPrefix, append_assoc, append_assoc]
    rfl

theorem LogicalKey.table_lt (k : LogicalKey) : k.table < 256 ^ 4 := by
  cases k with
  | version t => exact t.2.2
  | system => exact Nat.pow_pos (by decide)

theorem Tag.eq_of_take {a b : Tag}
    (h : (systemPrefix a.text).take 6 = (systemPrefix b.text).take 6) : a = b := by
  cases a <;> cases b <;> first | rfl | exact absurd h (by decide)

theorem Tag.take_append (a : Tag) (rest : Key) :
    (systemPrefix a.text ++ rest).take 6 = (systemPrefix a.text).take 6 := by
  have hlen : 6 ≤ (systemPrefix a.text).length := by cases a <;> decide
  rw [List.take_append, Nat.sub_eq_zero_of_le hlen, List.take_zero, List.append_nil]

/-! ## Injectivity -/

theorem utf8_inj {s t : String} (h : utf8 s = utf8 t) : s = t :=
  String.toByteArray_inj.mp (ByteArray.ext (Array.toList_inj.mp h))

theorem append_zero_inj {a b c d : List UInt8} (ha : 0 ∉ a) (hb : 0 ∉ b)
    (h : a ++ 0 :: c = b ++ 0 :: d) : a = b ∧ c = d := by
  induction a generalizing b with
  | nil =>
    cases b with
    | nil => exact ⟨rfl, (cons.inj h).2⟩
    | cons =>
      rw [nil_append, cons_append] at h
      rw [(cons.inj h).1] at hb
      exact absurd mem_cons_self hb
  | cons x a ih =>
    cases b with
    | nil =>
      rw [nil_append, cons_append] at h
      rw [(cons.inj h).1] at ha
      exact absurd mem_cons_self ha
    | cons =>
      obtain ⟨rfl, hrest⟩ := cons.inj h
      obtain ⟨rfl, rfl⟩ := ih (fun hm => ha (mem_cons_of_mem _ hm))
        (fun hm => hb (mem_cons_of_mem _ hm)) hrest
      exact ⟨rfl, rfl⟩

theorem SystemKey.tag_of_encode {s' : SystemKey} (h : s.encode = s'.encode) : s.tag = s'.tag := by
  rw [s.encode_eq, s'.encode_eq] at h
  refine Tag.eq_of_take ?_
  rw [← Tag.take_append s.tag s.body, h, Tag.take_append]

theorem SystemKey.eq_clog_of_tag (h : s.tag = .clog) : ∃ x, s = .clog x := by
  cases s with
  | clog x => exact ⟨x, rfl⟩
  | _ => cases h

theorem MetaKey.text_inj {m m' : MetaKey} (h : ascii m.text = ascii m'.text) : m = m' := by
  cases m <;> cases m' <;> first | rfl | exact absurd h (by decide)

theorem SystemKey.encode_inj {s' : SystemKey} (h : s.encode = s'.encode) : s = s' := by
  have htag := tag_of_encode h
  rw [s.encode_eq, s'.encode_eq, htag, append_cancel_left_eq] at h
  cases s <;> cases s' <;> try cases htag
  case catalog.catalog name name' => exact congrArg catalog (Subtype.ext (utf8_inj h))
  case fdw.fdw name name' => exact congrArg fdw (Subtype.ext (utf8_inj h))
  case server.server name name' => exact congrArg server (Subtype.ext (utf8_inj h))
  case counter.counter m m' => exact congrArg counter (MetaKey.text_inj h)
  case seq.seq t t' =>
    exact congrArg seq (Subtype.ext (bytes_inj t.2.2 t'.2.2 h))
  case clog.clog x x' => exact congrArg clog (Subtype.ext (bytes_inj x.2 x'.2 h))
  case userMapping.userMapping user srv user' srv' =>
    obtain ⟨huser, hserver⟩ := append_zero_inj user.2 user'.2 h
    rw [Subtype.ext (utf8_inj huser), Subtype.ext (utf8_inj hserver)]

theorem versionKeyXid_inj {t' r r' x x' : ℕ} (ht : t < 256 ^ 4) (ht' : t' < 256 ^ 4)
    (hr : r < 256 ^ 8) (hr' : r' < 256 ^ 8) (hx : x < 256 ^ 8) (hx' : x' < 256 ^ 8)
    (h : versionKeyXid t r x = versionKeyXid t' r' x') : t = t' ∧ r = r' ∧ x = x' := by
  simp only [versionKeyXid, rowKey, tablePrefix, append_assoc] at h
  obtain ⟨htable, h⟩ := append_inj h (by simp)
  obtain ⟨hrow, hxid⟩ := append_inj (append_cancel_left h) (by simp)
  exact ⟨bytes_inj ht ht' htable, bytes_inj hr hr' hrow,
    bytes_inj hx hx' hxid⟩

theorem LogicalKey.table_of_isPrefix {t : TableId} {rest : Key} (ht : t < 256 ^ 4)
    (h : bytes 4 t ++ rest <+: k.encode) : k.table = t := by
  obtain ⟨rest', hk⟩ := k.encode_eq
  obtain ⟨tail, htail⟩ := h
  rw [hk, append_assoc] at htail
  exact (bytes_inj ht k.table_lt (append_inj htail (by simp)).1).symm

theorem LogicalKey.encode_injective : Function.Injective LogicalKey.encode := by
  intro k k' h
  have htable : k.table = k'.table := by
    obtain ⟨rest, hk⟩ := k'.encode_eq
    have hstart : bytes 4 k'.table ++ rest <+: k.encode := by
      rw [h, hk]
    exact table_of_isPrefix k'.table_lt hstart
  cases k with
  | version t r x =>
    cases k' with
    | version t' r' x' =>
      obtain ⟨ht, hr, hx⟩ := versionKeyXid_inj t.2.2 t'.2.2 r.2 r'.2 x.2 x'.2 h
      rw [Subtype.ext ht, Subtype.ext hr, Subtype.ext hx]
    | system =>
      have hpos := t.2.1
      exact absurd htable (ne_of_gt hpos)
  | system =>
    cases k' with
    | version t' =>
      have hpos := t'.2.1
      exact absurd htable (Nat.ne_of_lt hpos)
    | system => exact congrArg system (SystemKey.encode_inj h)

/-! ## Prefixes -/

theorem rowKey_prefix_version (t : TableId) (rowid : ℕ) (x : Xid) :
    rowKey t rowid <+: versionKeyXid t rowid x :=
  prefix_append ..

theorem tablePrefix_prefix_iff (t : UserTable) (k : LogicalKey) :
    tablePrefix t <+: k.encode ↔ ∃ r x, k = .version t r x := by
  constructor
  · intro h
    have htable := LogicalKey.table_of_isPrefix t.2.2 h
    cases k with
    | version t' r x =>
      obtain rfl : t' = t := Subtype.ext htable
      exact ⟨r, x, rfl⟩
    | system =>
      have hpos := t.2.1
      exact absurd htable (Nat.ne_of_lt hpos)
  · rintro ⟨r, x, rfl⟩
    exact (prefix_append _ _).trans (rowKey_prefix_version t r x)

theorem rowKey_prefix_iff (t : UserTable) (r : U64) (k : LogicalKey) :
    rowKey t r <+: k.encode ↔ ∃ x, k = .version t r x := by
  constructor
  · intro h
    obtain ⟨r', x, rfl⟩ := (tablePrefix_prefix_iff t k).mp ((prefix_append _ _).trans h)
    obtain ⟨rest, hrest⟩ := h
    simp only [LogicalKey.encode, versionKeyXid, rowKey, append_assoc] at hrest
    have hrow := (append_inj (append_cancel_left hrest) (by simp)).1
    obtain rfl : r = r' := Subtype.ext (bytes_inj r.2 r'.2 hrow)
    exact ⟨x, rfl⟩
  · rintro ⟨x, rfl⟩
    exact rowKey_prefix_version t r x

theorem systemPrefix_prefix_iff (a : Tag) (k : LogicalKey) :
    systemPrefix a.text <+: k.encode ↔ ∃ s : SystemKey, s.tag = a ∧ k = .system s := by
  constructor
  · intro h
    have htable : k.table = systemTableId := by
      refine LogicalKey.table_of_isPrefix (by decide) (?_ : _ ++ (ascii a.text ++ [47]) <+: _)
      rwa [← append_assoc]
    cases k with
    | version t =>
      have hpos := t.2.1
      exact absurd htable (ne_of_gt hpos)
    | system s =>
      refine ⟨s, ?_, rfl⟩
      obtain ⟨rest, hrest⟩ := h
      rw [LogicalKey.encode, s.encode_eq] at hrest
      refine (Tag.eq_of_take ?_).symm
      rw [← Tag.take_append a rest, hrest, Tag.take_append]
  · rintro ⟨s, rfl, rfl⟩
    rw [LogicalKey.encode, s.encode_eq]
    exact prefix_append ..

/-! ## Order -/

theorem compare_version (t t' : UserTable) (r r' x x' : U64) :
    compare (versionKeyXid t r x) (versionKeyXid t' r' x') =
      (compare t.1 t'.1).then ((compare r.1 r'.1).then (compare x.1 x'.1)) := by
  simp only [versionKeyXid, rowKey, tablePrefix, append_assoc]
  rw [compare_append (by simp), compare_append_left,
    compare_append (by simp), compare_bytes t.2.2 t'.2.2,
    compare_bytes r.2 r'.2, compare_bytes x.2 x'.2]

theorem compare_clogKey (x x' : U64) : compare (clogKey x) (clogKey x') = compare x.1 x'.1 := by
  rw [clogKey, clogKey, compare_append_left, compare_bytes x.2 x'.2]

theorem compare_table {t : TableId} (ht : t < 256 ^ 4) (hne : k.table ≠ t) (rest : Key) : compare k.encode (bytes 4 t ++ rest) = compare k.table t := by
  obtain ⟨tail, hk⟩ := k.encode_eq
  rw [hk, compare_append (by simp), compare_bytes k.table_lt ht]
  rcases lt_or_gt_of_ne hne with hlt | hgt
  · rw [Nat.compare_eq_lt.mpr hlt]
    rfl
  · rw [Nat.compare_eq_gt.mpr hgt]
    rfl

theorem compare_tag {a : Tag} (hne : s.tag ≠ a) (rest : Key) :
    compare s.encode ((systemPrefix a.text).take 6 ++ rest) =
      compare ((systemPrefix s.tag.text).take 6) ((systemPrefix a.text).take 6) := by
  have hlen (b : Tag) : ((systemPrefix b.text).take 6).length = 6 := by cases b <;> decide
  have hsplit : s.encode = (systemPrefix s.tag.text).take 6 ++ s.encode.drop 6 := by
    rw [← Tag.take_append s.tag s.body, ← s.encode_eq, take_append_drop]
  rw [hsplit, compare_append (by rw [hlen, hlen])]
  cases hcmp : compare ((systemPrefix s.tag.text).take 6) ((systemPrefix a.text).take 6) with
  | lt | gt => rfl
  | eq => exact absurd (Tag.eq_of_take (Std.LawfulEqCmp.eq_of_compare hcmp)) hne

/-! ## Scans -/

/-- The store of a range: every key is that of some record. -/
structure Keyspace where
  map : ExtTreeMap Key Value
  keyed : ∀ e ∈ map.toList, ∃ k : LogicalKey, k.encode = e.1

def scanPrefix (map : ExtTreeMap Key Value) (pre : Key) : List (Key × Value) :=
  (map.toList.filter fun e => (compare pre e.1).isLE).takeWhile fun e => pre.isPrefixOf e.1

/-- `range(start..end)`; `none` is the panic of an ordered map on bounds in the wrong order. -/
def scanRange (map : ExtTreeMap Key Value) (start stop : Key) : Option (List (Key × Value)) :=
  if compare start stop = .gt then none
  else some (map.toList.filter fun e => (compare start e.1).isLE && compare e.1 stop == .lt)

theorem mem_scanPrefix {map : ExtTreeMap Key Value} {pre : Key} {e : Key × Value} :
    e ∈ scanPrefix map pre ↔ e ∈ map.toList ∧ pre <+: e.1 := by
  have hsorted : (map.toList.filter fun e => (compare pre e.1).isLE).Pairwise
      fun a b => compare a.1 b.1 = .lt :=
    ExtTreeMap.ordered_keys_toList.filter _
  rw [scanPrefix, takeWhile_isPrefixOf hsorted fun e he => (mem_filter.mp he).2,
    mem_filter, mem_filter, isPrefixOf_iff_prefix]
  constructor
  · rintro ⟨⟨hmem, -⟩, hpre⟩
    exact ⟨hmem, hpre⟩
  · rintro ⟨hmem, hpre⟩
    exact ⟨⟨hmem, isLE_of_isPrefix hpre⟩, hpre⟩

theorem Keyspace.mem_scanPrefix_iff (S : Keyspace) {pre : Key} {kind : LogicalKey → Prop}
    (hkind : ∀ k : LogicalKey, pre <+: k.encode ↔ kind k) (e : Key × Value) :
    e ∈ scanPrefix S.map pre ↔ e ∈ S.map.toList ∧ ∃ k, kind k ∧ k.encode = e.1 := by
  rw [mem_scanPrefix]
  refine and_congr_right fun hmem => ?_
  constructor
  · intro hpre
    obtain ⟨k, hk⟩ := S.keyed e hmem
    rw [← hk] at hpre
    exact ⟨k, (hkind k).mp hpre, hk⟩
  · rintro ⟨k, hk, hkey⟩
    rw [← hkey]
    exact (hkind k).mpr hk

theorem Keyspace.mem_scanRange_iff (S : Keyspace) {start stop : Key} {kind : LogicalKey → Prop}
    (hbounds : compare start stop ≠ .gt) (hkind : ∀ k : LogicalKey,
      ((compare start k.encode).isLE = true ∧ compare k.encode stop = .lt) ↔ kind k) :
    ∃ found, scanRange S.map start stop = some found ∧
      ∀ e, e ∈ found ↔ e ∈ S.map.toList ∧ ∃ k, kind k ∧ k.encode = e.1 := by
  refine ⟨_, if_neg hbounds, fun e => ?_⟩
  rw [mem_filter, Bool.and_eq_true, beq_iff_eq]
  refine and_congr_right fun hmem => ?_
  constructor
  · intro hrange
    obtain ⟨k, hk⟩ := S.keyed e hmem
    rw [← hk] at hrange
    exact ⟨k, (hkind k).mp hrange, hk⟩
  · rintro ⟨k, hk, hkey⟩
    rw [← hkey]
    exact (hkind k).mpr hk

theorem isLE_of_compare_swap {a b : Key} (h : compare a b = .lt) : (compare b a).isLE = false := by
  rw [Std.OrientedCmp.gt_iff_lt.mpr h]
  rfl

theorem clog_range_iff (lo : U64) (k : LogicalKey) :
    ((compare (clogKey lo) k.encode).isLE = true ∧ compare k.encode clogScanEnd = .lt) ↔
      ∃ x : U64, lo.1 ≤ x.1 ∧ k = .system (.clog x) := by
  have hend : clogScanEnd = (systemPrefix Tag.clog.text).take 6 ++ [111, 103, 48] := by decide
  have hstart : clogKey lo = (systemPrefix Tag.clog.text).take 6 ++
      ([111, 103, 47] ++ bytes 8 lo) := by
    rw [clogKey, ← append_assoc]
    rfl
  constructor
  · rintro ⟨hlow, hhigh⟩
    cases k with
    | version t r x =>
      -- a table of its own is above all system keys
      have hpos := t.2.1
      have hend' : clogScanEnd = bytes 4 systemTableId ++ [99, 108, 111, 103, 48] := by
        decide
      have hne : (LogicalKey.version t r x).table ≠ systemTableId := ne_of_gt hpos
      rw [hend', compare_table (by decide) hne] at hhigh
      exact absurd (Nat.compare_eq_lt.mp hhigh) (Nat.not_lt_zero _)
    | system s =>
      by_cases htag : s.tag = .clog
      · obtain ⟨x, rfl⟩ := SystemKey.eq_clog_of_tag htag
        rw [LogicalKey.encode, SystemKey.encode, compare_clogKey] at hlow
        exact ⟨x, Nat.isLE_compare.mp hlow, rfl⟩
      · have hs : ∀ rest, compare s.encode ((systemPrefix Tag.clog.text).take 6 ++ rest) = _ :=
          compare_tag htag
        rw [LogicalKey.encode, hend, hs] at hhigh
        have hbelow : compare (LogicalKey.system s).encode (clogKey lo) = .lt := by
          rw [LogicalKey.encode, hstart, hs, hhigh]
        rw [isLE_of_compare_swap hbelow] at hlow
        cases hlow
  · rintro ⟨x, hle, rfl⟩
    refine ⟨?_, ?_⟩
    · rw [LogicalKey.encode, SystemKey.encode, compare_clogKey]
      exact Nat.isLE_compare.mpr hle
    · have hx : clogKey x = (systemPrefix Tag.clog.text).take 6 ++
          ([111, 103, 47] ++ bytes 8 x) := by
        rw [clogKey, ← append_assoc]
        rfl
      rw [LogicalKey.encode, SystemKey.encode, hx, hend, compare_append_left]
      rfl

theorem clogKey_lt_end (x : U64) : compare (clogKey x) clogScanEnd = .lt :=
  ((clog_range_iff x (.system (.clog x))).mpr ⟨x, le_rfl, rfl⟩).2

theorem clog_between_iff (lo hi : U64) (k : LogicalKey) :
    ((compare (clogKey lo) k.encode).isLE = true ∧ compare k.encode (clogKey hi) = .lt) ↔
      ∃ x : U64, lo.1 ≤ x.1 ∧ x.1 < hi.1 ∧ k = .system (.clog x) := by
  constructor
  · rintro ⟨hlow, hhigh⟩
    have hend : compare k.encode clogScanEnd = .lt :=
      Std.TransCmp.lt_trans hhigh (clogKey_lt_end hi)
    obtain ⟨x, hle, rfl⟩ := (clog_range_iff lo k).mp ⟨hlow, hend⟩
    rw [LogicalKey.encode, SystemKey.encode, compare_clogKey] at hhigh
    exact ⟨x, hle, Nat.compare_eq_lt.mp hhigh, rfl⟩
  · rintro ⟨x, hle, hlt, rfl⟩
    refine ⟨((clog_range_iff lo _).mpr ⟨x, hle, rfl⟩).1, ?_⟩
    rw [LogicalKey.encode, SystemKey.encode, compare_clogKey]
    exact Nat.compare_eq_lt.mpr hlt

theorem version_range_iff (k : LogicalKey) :
    ((compare (tablePrefix (systemTableId + 1)) k.encode).isLE = true ∧
        compare k.encode versionScanEnd = .lt) ↔ ∃ t r x, k = .version t r x := by
  constructor
  · rintro ⟨hlow, -⟩
    cases k with
    | version t r x => exact ⟨t, r, x, rfl⟩
    | system s =>
      have hne : (LogicalKey.system s).table ≠ systemTableId + 1 := zero_ne_one
      have hbelow : compare (LogicalKey.system s).encode (tablePrefix (systemTableId + 1)) = .lt :=
        compare_table (by decide) hne _
      rw [isLE_of_compare_swap hbelow] at hlow
      cases hlow
  · rintro ⟨t, r, x, rfl⟩
    have hpos := t.2.1
    constructor
    · by_cases hone : t.1 = systemTableId + 1
      · rw [LogicalKey.encode, hone]
        exact isLE_of_isPrefix
          ((prefix_append _ _).trans (rowKey_prefix_version _ r x))
      · have hne : (LogicalKey.version t r x).table ≠ systemTableId + 1 := hone
        have habove : compare (LogicalKey.version t r x).encode
            (tablePrefix (systemTableId + 1)) = .gt := by
          rw [tablePrefix, compare_table (by decide) hne]
          exact Nat.compare_eq_gt.mpr (lt_of_le_of_ne hpos (Ne.symm hone))
        rw [Std.OrientedCmp.gt_iff_lt.mp habove]
        rfl
    · have hend : versionScanEnd = bytes 4 4294967295 ++ [255] := by decide
      have hbound : t.1 < 4294967296 := by simpa using t.2.2
      rw [hend]
      by_cases hlast : t.1 = 4294967295
      · have hindex : bytes 4 indexPrimary = [0, 0, 0, 1] := by decide
        have hbyte : compare (0 : UInt8) 255 = .lt := by decide
        rw [LogicalKey.encode, versionKeyXid, rowKey, tablePrefix, hlast, append_assoc,
          append_assoc, compare_append_left, hindex, cons_append,
          List.compare_cons_cons, hbyte]
        exact Ordering.lt_then
      · have hne : (LogicalKey.version t r x).table ≠ 4294967295 := hlast
        have hbelow (n : ℕ) (hn : n < 4294967296) (hn' : n ≠ 4294967295) : n < 4294967295 := by
          omega
        rw [compare_table (by norm_num) hne]
        exact Nat.compare_eq_lt.mpr (hbelow t.1 hbound hlast)

/-! ## Decoding -/

theorem takeU32_bytes {n : ℕ} (hn : n < 256 ^ 4) (rest : Key) :
    takeU32 (bytes 4 n ++ rest) = .ok (n, rest) := by
  have htake : (bytes 4 n ++ rest).take 4 = bytes 4 n :=
    take_left' (length_bytes 4 n)
  have hdrop : (bytes 4 n ++ rest).drop 4 = rest :=
    drop_left' (length_bytes 4 n)
  rw [takeU32, if_pos (by simp), htake, hdrop, value_bytes_of_lt hn]

theorem takeU64_bytes {n : ℕ} (hn : n < 256 ^ 8) (rest : Key) :
    takeU64 (bytes 8 n ++ rest) = .ok (n, rest) := by
  have htake : (bytes 8 n ++ rest).take 8 = bytes 8 n :=
    take_left' (length_bytes 8 n)
  have hdrop : (bytes 8 n ++ rest).drop 8 = rest :=
    drop_left' (length_bytes 8 n)
  rw [takeU64, if_pos (by simp), htake, hdrop, value_bytes_of_lt hn]

theorem tableRowidOf_of_take {cur cur' : Key} {idx : ℕ} (ht : takeU32 key = .ok (t, cur))
    (hidx : takeU32 cur = .ok (idx, cur')) :
    tableRowidOf key = if t = systemTableId ∨ idx ≠ indexPrimary then none
      else (takeU64 cur').toOption.map fun p => (t, p.1) := by
  simp only [tableRowidOf, ht, hidx, Except.toOption, Option.bind_eq_bind, Option.bind_some]
  split_ifs
  · rfl
  · cases takeU64 cur' <;> rfl

theorem rowidOf_of_take {table : TableId} {cur cur' : Key} {idx : ℕ}
    (ht : takeU32 key = .ok (t, cur)) (hidx : takeU32 cur = .ok (idx, cur')) :
    rowidOf table key = if t ≠ table ∨ idx ≠ indexPrimary then
        .error (.corruptRow "key does not belong to this table index")
      else (takeU64 cur').map Prod.fst := by
  simp only [rowidOf, ht, hidx, bind, Except.bind]
  split_ifs
  · rfl
  · cases takeU64 cur' <;> rfl

theorem indexPrimary_lt : indexPrimary < 256 ^ 4 := by decide

theorem takeU32_rowKey (t : UserTable) (r : ℕ) (rest : Key) : takeU32 (rowKey t r ++ rest) =
      .ok (t.1, bytes 4 indexPrimary ++ (bytes 8 r ++ rest)) := by
  rw [rowKey, tablePrefix, append_assoc, append_assoc]
  exact takeU32_bytes t.2.2 _

theorem tableRowidOf_rowKey (t : UserTable) (r : U64) (rest : Key) :
    tableRowidOf (rowKey t r ++ rest) = some (t.1, r.1) := by
  have hpos := t.2.1
  have hne : ¬ (t.1 = systemTableId ∨ indexPrimary ≠ indexPrimary) := by
    rintro (h | h)
    · exact ne_of_gt hpos h
    · exact h rfl
  have hrow : takeU64 (bytes 8 r ++ rest) = .ok (r.1, rest) := takeU64_bytes r.2 rest
  rw [tableRowidOf_of_take (takeU32_rowKey t r rest) (takeU32_bytes indexPrimary_lt _), if_neg hne,
    hrow]
  rfl

theorem rowidOf_rowKey (t : UserTable) (r : U64) (rest : Key) :
    rowidOf t (rowKey t r ++ rest) = .ok r.1 := by
  have hne : ¬ (t.1 ≠ t.1 ∨ indexPrimary ≠ indexPrimary) := by simp
  have hrow : takeU64 (bytes 8 r ++ rest) = .ok (r.1, rest) := takeU64_bytes r.2 rest
  rw [rowidOf_of_take (takeU32_rowKey t r rest) (takeU32_bytes indexPrimary_lt _), if_neg hne,
    hrow]
  rfl

theorem xidOfKey_version (t : TableId) (r : ℕ) (x : U64) :
    xidOfKey (versionKeyXid t r x) = .ok x.1 := by
  have hlen : (versionKeyXid t r x).length = (rowKey t r).length + 8 := by simp [versionKeyXid]
  have hdrop : (versionKeyXid t r x).drop ((versionKeyXid t r x).length - 8) =
      bytes 8 x := by
    rw [hlen, Nat.add_sub_cancel, versionKeyXid, drop_left]
  rw [xidOfKey, if_neg (by omega), hdrop, value_bytes_of_lt x.2]

theorem rowPrefixOf_version (t : TableId) (r : ℕ) (x : Xid) :
    rowPrefixOf (versionKeyXid t r x) = .ok (rowKey t r) := by
  have hlen : (versionKeyXid t r x).length = (rowKey t r).length + 8 := by simp [versionKeyXid]
  rw [rowPrefixOf, if_neg (by omega), hlen, Nat.add_sub_cancel, versionKeyXid, take_left]

theorem clogXidOf_clogKey (x : U64) : clogXidOf (clogKey x) = some x.1 := by
  have hlen : (clogKey x).length = clogPrefix.length + 8 := by simp [clogKey]
  have hval : takeU64 ((clogKey x).drop clogPrefix.length) = .ok (x.1, []) := by
    rw [clogKey, drop_left, ← append_nil (bytes 8 x), takeU64_bytes x.2]
  have htake : (clogKey x).take clogPrefix.length = clogPrefix := by rw [clogKey, take_left]
  simp only [clogXidOf, hlen, htake, hval, ne_eq, not_true_eq_false, or_self, if_false,
    Except.toOption, Option.map_some]

theorem takeU32_encode (k : LogicalKey) : ∃ rest, takeU32 k.encode = .ok (k.table, rest) := by
  obtain ⟨rest, hk⟩ := k.encode_eq
  exact ⟨rest, by rw [hk, takeU32_bytes k.table_lt]⟩

theorem tableRowidOf_system (s : SystemKey) : tableRowidOf s.encode = none := by
  obtain ⟨rest, htake⟩ := takeU32_encode (.system s)
  simp only [LogicalKey.encode, LogicalKey.table] at htake
  cases hidx : takeU32 rest with
  | error =>
    simp only [tableRowidOf, htake, hidx, Except.toOption, Option.bind_eq_bind, Option.bind_some,
      Option.bind_none]
  | ok => rw [tableRowidOf_of_take htake hidx, if_pos (.inl rfl)]

theorem rowidOf_other {t : TableId} (hne : k.table ≠ t) : ∃ e, rowidOf t k.encode = .error e := by
  obtain ⟨rest, htake⟩ := takeU32_encode k
  cases hidx : takeU32 rest with
  | error e => exact ⟨e, by simp only [rowidOf, htake, hidx, bind, Except.bind]⟩
  | ok =>
    rw [rowidOf_of_take htake hidx, if_pos (.inl hne)]
    exact ⟨_, rfl⟩

theorem clogXidOf_eq_some {x : Xid} (h : clogXidOf key = some x) : clogPrefix <+: key := by
  by_contra hpre
  have htake : key.take clogPrefix.length ≠ clogPrefix := fun heq =>
    hpre (prefix_iff_eq_take.mpr heq.symm)
  have hnone : clogXidOf key = none := if_pos (.inr htake)
  rw [hnone] at h
  cases h

theorem clogXidOf_other (hk : ∀ x, k ≠ .system (.clog x)) : clogXidOf k.encode = none := by
  refine Option.eq_none_iff_forall_ne_some.mpr fun x hx => ?_
  obtain ⟨s, htag, rfl⟩ := (systemPrefix_prefix_iff .clog k).mp (clogXidOf_eq_some hx)
  obtain ⟨y, rfl⟩ := SystemKey.eq_clog_of_tag htag
  exact hk y rfl

theorem LogicalKey.system_of_not_version (h : ∀ t r x, k ≠ .version t r x) :
    ∃ s, k = .system s := by
  cases k with
  | version t r x => exact absurd rfl (h t r x)
  | system s => exact ⟨s, rfl⟩

/-- The layout as a whole: one key for each record, scans of one kind, the order of versions and
commit-log entries, and decoders that invert the encoders and refuse every other kind. -/
theorem key_layout : Function.Injective LogicalKey.encode ∧
      -- every prefix scan, by table, row or system tag, and every range scan meets one kind
      (∀ (S : Keyspace) (t : UserTable) e, e ∈ scanPrefix S.map (tablePrefix t) ↔
        e ∈ S.map.toList ∧ ∃ k : LogicalKey, (∃ r x, k = .version t r x) ∧ k.encode = e.1) ∧
      (∀ (S : Keyspace) (t : UserTable) (r : U64) e, e ∈ scanPrefix S.map (rowKey t r) ↔
        e ∈ S.map.toList ∧ ∃ k : LogicalKey, (∃ x, k = .version t r x) ∧ k.encode = e.1) ∧
      (∀ (S : Keyspace) (a : Tag) e, e ∈ scanPrefix S.map (systemPrefix a.text) ↔
        e ∈ S.map.toList ∧
          ∃ k : LogicalKey, (∃ s : SystemKey, s.tag = a ∧ k = .system s) ∧ k.encode = e.1) ∧
      (∀ (S : Keyspace) (lo : U64),
        ∃ found, scanRange S.map (clogKey lo) clogScanEnd = some found ∧ ∀ e, e ∈ found ↔
          e ∈ S.map.toList ∧ ∃ k : LogicalKey, (∃ x : U64, lo.1 ≤ x.1 ∧ k = .system (.clog x)) ∧
            k.encode = e.1) ∧
      (∀ (S : Keyspace) (lo hi : U64), lo.1 ≤ hi.1 →
        ∃ found, scanRange S.map (clogKey lo) (clogKey hi) = some found ∧ ∀ e, e ∈ found ↔
          e ∈ S.map.toList ∧ ∃ k : LogicalKey,
            (∃ x : U64, lo.1 ≤ x.1 ∧ x.1 < hi.1 ∧ k = .system (.clog x)) ∧ k.encode = e.1) ∧
      (∀ S : Keyspace, ∃ found,
        scanRange S.map (tablePrefix (systemTableId + 1)) versionScanEnd = some found ∧
          ∀ e, e ∈ found ↔
            e ∈ S.map.toList ∧ ∃ k : LogicalKey, (∃ t r x, k = .version t r x) ∧ k.encode = e.1) ∧
      -- the order of the bytes is the order of the numbers
      (∀ (t t' : UserTable) (r r' x x' : U64),
        compare (versionKeyXid t r x) (versionKeyXid t' r' x') =
          (compare t.1 t'.1).then ((compare r.1 r'.1).then (compare x.1 x'.1))) ∧
      (∀ x x' : U64, compare (clogKey x) (clogKey x') = compare x.1 x'.1) ∧
      -- the decoders invert the encoders
      (∀ (t : UserTable) (r x : U64), tableRowidOf (versionKeyXid t r x) = some (t.1, r.1) ∧
        rowidOf t (versionKeyXid t r x) = .ok r.1 ∧ xidOfKey (versionKeyXid t r x) = .ok x.1 ∧
        rowPrefixOf (versionKeyXid t r x) = .ok (rowKey t r)) ∧
      (∀ x : U64, clogXidOf (clogKey x) = some x.1) ∧
      -- and refuse the keys of every other kind
      (∀ k : LogicalKey, (∀ t r x, k ≠ .version t r x) →
        tableRowidOf k.encode = none ∧ ∀ t : UserTable, ∃ e, rowidOf t k.encode = .error e) ∧
      ∀ k : LogicalKey, (∀ x, k ≠ .system (.clog x)) → clogXidOf k.encode = none := by
  refine ⟨LogicalKey.encode_injective,
    fun S t => S.mem_scanPrefix_iff (tablePrefix_prefix_iff t),
    fun S t r => S.mem_scanPrefix_iff (rowKey_prefix_iff t r),
    fun S a => S.mem_scanPrefix_iff (systemPrefix_prefix_iff a), fun S lo => ?_,
    fun S lo hi hle => ?_, fun S => ?_, compare_version, compare_clogKey, fun t r x => ?_,
    clogXidOf_clogKey, fun k hk => ?_, fun k => clogXidOf_other⟩
  · refine S.mem_scanRange_iff ?_ (clog_range_iff lo)
    rw [clogKey_lt_end]
    decide
  · refine S.mem_scanRange_iff ?_ (clog_between_iff lo hi)
    rw [compare_clogKey]
    exact Nat.compare_ne_gt.mpr hle
  · exact S.mem_scanRange_iff (by decide) version_range_iff
  · exact ⟨tableRowidOf_rowKey t r _, rowidOf_rowKey t r _, xidOfKey_version t r x,
      rowPrefixOf_version t r x⟩
  · obtain ⟨s, rfl⟩ := LogicalKey.system_of_not_version hk
    refine ⟨tableRowidOf_system s, fun t => rowidOf_other ?_⟩
    have hpos := t.2.1
    exact Nat.ne_of_lt hpos

end Crabgresql.Replica
