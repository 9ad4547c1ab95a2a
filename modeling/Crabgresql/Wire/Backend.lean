import Crabgresql.Replica.Keys
import Crabgresql.Wire.Session

/-!
# The bytes of backend messages

A tag, the length of what follows the tag, and the body. Numbers are cut to the
width of their field, also the counts of fields and values.
-/

namespace Crabgresql.Wire

open Replica (utf8)

def putI16 (x : ℤ) : Bytes := BigEndian.bytes 2 (x % 2 ^ 16).toNat

def putI32 (x : ℤ) : Bytes := BigEndian.bytes 4 (x % 2 ^ 32).toNat

def putCstr (s : String) : Bytes := utf8 s ++ [0]

def TxStatus.asByte : TxStatus → UInt8
  | .idle => 73
  | .inTransaction => 84
  | .failed => 69

def Severity.asStr : Severity → String
  | .error => "ERROR"
  | .fatal => "FATAL"

def putField (f : FieldDescription) : Bytes :=
  putCstr f.name ++ (putI32 f.tableOid ++ (putI16 f.columnId ++ (putI32 f.typeOid ++
    (putI16 f.typeSize ++ (putI32 f.typeModifier ++ putI16 f.format)))))

def putValue : Option Bytes → Bytes
  | some bytes => putI32 bytes.length ++ bytes
  | none => putI32 (-1)

namespace BackendMessage

def tag : BackendMessage → UInt8
  | .rowDescription _ => 84
  | .parameterDescription _ => 116
  | .dataRow _ => 68
  | .commandComplete _ => 67
  | .emptyQueryResponse => 73
  | .parseComplete => 49
  | .bindComplete => 50
  | .closeComplete => 51
  | .noData => 110
  | .errorResponse _ => 69
  | .readyForQuery _ => 90

def body : BackendMessage → Bytes
  | .rowDescription fields => putI16 fields.length ++ fields.flatMap putField
  | .parameterDescription types => putI16 types.length ++ types.flatMap putI32
  | .dataRow values => putI16 values.length ++ values.flatMap putValue
  | .commandComplete tag => putCstr tag
  | .emptyQueryResponse | .parseComplete | .bindComplete | .closeComplete | .noData => []
  | .errorResponse e =>
    83 :: putCstr e.severity.asStr ++ (86 :: putCstr e.severity.asStr ++
      (67 :: putCstr e.code ++ (77 :: putCstr e.message ++ [0])))
  | .readyForQuery status => [status.asByte]

def encode (m : BackendMessage) : Bytes := m.tag :: putI32 (m.body.length + 4) ++ m.body

/-- The length of the body and of the length field itself fits the length field. -/
def Fits (m : BackendMessage) : Prop := m.body.length + 4 < 2 ^ 31

theorem tag_readyForQuery {m : BackendMessage} (h : m.tag = 90) : ∃ st, m = .readyForQuery st := by
  cases m with
  | readyForQuery st => exact ⟨st, rfl⟩
  | rowDescription | parameterDescription | dataRow | commandComplete | emptyQueryResponse
  | parseComplete | bindComplete | closeComplete | noData | errorResponse =>
    simp only [tag] at h
    exact absurd h (by decide)

end BackendMessage

end Crabgresql.Wire
