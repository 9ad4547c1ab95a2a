import Crabgresql.Mvcc
import Crabgresql.Lib.BigEndian

/-!
# Keys and values of the replicated store

The state machine sees bytes. System keys stand under table id 0 and a tag; the
apply path classifies a key by its bytes alone, as a counter (`next_xid` and
every table's sequence), as a commit-log entry, or as neither.
-/

namespace Crabgresql.Replica

open Mvcc BigEndian

abbrev Key := List UInt8
abbrev Value := List UInt8
abbrev Contents := Key → Option Value

def ascii (s : String) : List UInt8 := s.toList.map fun c => UInt8.ofNat c.toNat

def utf8 (s : String) : List UInt8 := s.toByteArray.data.toList

theorem fromUTF8_utf8 (s : String) : String.fromUTF8? ⟨(utf8 s).toArray⟩ = some s := by
  have hbytes : (⟨(utf8 s).toArray⟩ : ByteArray) = s.toByteArray := by
    rw [utf8, Array.toArray_toList]
  rw [hbytes, String.fromUTF8?, dif_pos s.isValidUTF8]
  rfl

def systemTableId : TableId := 0

def systemPrefix (tag : String) : Key :=
  bytes 4 systemTableId ++ ascii tag ++ [47]

def catalogKey (tableName : String) : Key := systemPrefix "catalog" ++ utf8 tableName

def seqKey (t : TableId) : Key := systemPrefix "seq" ++ bytes 4 t

def nextXidKey : Key := systemPrefix "meta" ++ ascii "next_xid"

def metaNextGlobalXidKey : Key := systemPrefix "meta" ++ ascii "next_global_xid"

def clogPrefix : Key := systemPrefix "clog"

def clogKey (x : Xid) : Key := clogPrefix ++ bytes 8 x

def isSeqKey (key : Key) : Bool :=
  let plen := (seqKey 0).length - 4
  key.length == (seqKey 0).length && key.take plen == (seqKey 0).take plen

def isCounterKey (key : Key) : Bool := key == nextXidKey || isSeqKey key

def isClogKey (key : Key) : Bool :=
  decide (clogPrefix.length ≤ key.length) && key.take clogPrefix.length == clogPrefix

@[simp] theorem isClogKey_clogKey (x : Xid) : isClogKey (clogKey x) = true := by
  simp [isClogKey, clogKey]

theorem isCounterKey_of_isClogKey {key : Key} (h : isClogKey key = true) :
    isCounterKey key = false := by
  rw [isClogKey, Bool.and_eq_true, beq_iff_eq] at h
  have htake : key.take 8 = clogPrefix.take 8 := by
    rw [← h.2, List.take_take]
    rfl
  rw [isCounterKey, Bool.or_eq_false_iff]
  constructor
  · rw [beq_eq_false_iff_ne]
    rintro rfl
    revert htake
    decide
  · rw [isSeqKey, Bool.and_eq_false_iff]
    right
    rw [beq_eq_false_iff_ne]
    intro hseq
    have hseq' : clogPrefix.take 8 = (seqKey 0).take 8 := htake.symm.trans hseq
    revert hseq'
    decide

/-- Decode a counter; `none` is the source's `expect` on a short value. -/
def u64Be (b : Value) : Option ℕ :=
  if 8 ≤ b.length then some (value (b.take 8)) else none

def u64Bytes (n : ℕ) : Value := bytes 8 n

theorem u64Be_lt {b : Value} {n : ℕ} (h : u64Be b = some n) : n < 256 ^ 8 := by
  unfold u64Be at h
  split_ifs at h with hlen
  cases h
  have hvalue := value_lt (b.take 8)
  rwa [List.length_take, Nat.min_eq_left hlen] at hvalue

theorem u64Be_u64Bytes {n : ℕ} (h : n < 256 ^ 8) : u64Be (u64Bytes n) = some n := by
  have htake : (u64Bytes n).take 8 = u64Bytes n :=
    List.take_of_length_le (Nat.le_of_eq (length_bytes 8 n))
  rw [u64Be, htake, u64Bytes, length_bytes, if_pos (Nat.le_refl 8),
    value_bytes_of_lt h]

/-- The decoder of a commit-log entry; an absent entry is read as the empty value. -/
def decode : Value → Except String XidStatus
  | [] => .ok .inProgress
  | 0 :: _ => .ok .inProgress
  | 1 :: _ => .ok .committed
  | 2 :: _ => .ok .aborted
  | 3 :: g =>
    if 8 ≤ g.length then .ok (.prepared (value (g.take 8)))
    else .error "prepared clog missing global xid"
  | _ => .error "bad clog status byte"

def encode : XidStatus → Value
  | .inProgress => [0]
  | .committed => [1]
  | .aborted => [2]
  | .prepared g => 3 :: bytes 8 g

def isTerminal (value : Value) : Bool := value.head? == some 1 || value.head? == some 2

def clogGet (kv : Contents) (x : Xid) : Except String XidStatus := decode ((kv (clogKey x)).getD [])

end Crabgresql.Replica
