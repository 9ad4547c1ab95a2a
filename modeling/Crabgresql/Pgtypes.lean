import Mathlib

/-!
# Column types and values

The types a column can have and the values of a cell. Calendar values are kept by
their distance from an origin, within the range the calendar library has.
-/

namespace Crabgresql.Pgtypes

/-- The modifier of `numeric(p, s)`. -/
structure Typmod where
  precision : ℕ
  scale : ℕ
  deriving DecidableEq

inductive ColumnType
  | bool
  | int4
  | int8
  | text
  | float8
  | numeric (typmod : Option Typmod)
  | date
  | time
  | timestamp
  | timestamptz
  | interval
  | bytea
  deriving DecidableEq

namespace ColumnType

def name : ColumnType → String
  | bool => "boolean"
  | int8 => "bigint"
  | int4 => "integer"
  | text => "text"
  | float8 => "double precision"
  | numeric _ => "numeric"
  | date => "date"
  | time => "time without time zone"
  | timestamp => "timestamp without time zone"
  | timestamptz => "timestamp with time zone"
  | interval => "interval"
  | bytea => "bytea"

def typeSize : ColumnType → ℤ
  | bool => 1
  | int8 => 8
  | int4 => 4
  | text => -1
  | float8 => 8
  | numeric _ => -1
  | date => 4
  | time => 8
  | timestamp => 8
  | timestamptz => 8
  | interval => 16
  | bytea => -1

def isNumeric : ColumnType → Bool
  | numeric _ => true
  | _ => false

end ColumnType

/-- A calendar date, from -9999-01-01 to 9999-12-31, in days since 1970-01-01. -/
structure Date where
  day : ℤ
  in_range : -4371587 ≤ day ∧ day ≤ 2932896
  deriving DecidableEq

/-- A time of day, in nanoseconds since midnight. -/
structure Time where
  nanos : ℕ
  in_range : nanos < 86400000000000
  deriving DecidableEq

structure DateTime where
  date : Date
  time : Time
  deriving DecidableEq

/-- An instant, in nanoseconds since 1970-01-01 00:00:00 UTC. -/
structure Timestamp where
  nanos : ℤ
  in_range : -377705023201000000000 ≤ nanos ∧ nanos ≤ 253402207200999999999
  deriving DecidableEq

structure Interval where
  months : Int32
  days : Int32
  micros : Int64
  deriving DecidableEq

/-- The number `digits / 10 ^ scale`. -/
structure BigDecimal where
  digits : ℤ
  scale : ℤ
  deriving DecidableEq

/-- A double by its bits. -/
structure Float8 where
  bits : UInt64
  deriving DecidableEq

inductive Datum
  | null
  | bool (b : Bool)
  | int4 (n : Int32)
  | int8 (n : Int64)
  | text (s : String)
  | float8 (f : Float8)
  | numeric (d : BigDecimal)
  | date (d : Date)
  | time (t : Time)
  | timestamp (dt : DateTime)
  | timestamptz (ts : Timestamp)
  | interval (i : Interval)
  | bytea (bs : List UInt8)
  deriving DecidableEq

end Crabgresql.Pgtypes
