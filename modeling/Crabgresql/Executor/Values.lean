import Crabgresql.Sql.Ast

/-!
# Values and their operators

Equality and hashing of values go by a canonical form: numerics by their value,
intervals by their estimated length, doubles up to the sign of zero and the bits of
NaN. Comparison and arithmetic promote integers to numeric and numerics to doubles.
What needs the calendar, the session's time zone or floating-point arithmetic is a
parameter, and so are the functions of a call once their arguments are evaluated.
-/

namespace Crabgresql.Executor

open Pgtypes Sql

inductive TypeError
  | overflow
  | divisionByZero
  | invalidText (typeName value : String)
  | typeMismatch (message : String)
  | invalidEscape
  | cannotCast (from_ to_ : String)
  | domain (sqlstate message : String)
  | invalidDatetimeFormat (typeName value : String)
  | datetimeFieldOverflow (value : String)
  deriving DecidableEq

/-- The errors of operators, functions and references. -/
inductive ValueError
  | type (e : TypeError)
  | typeMismatch (message : String)
  | undefinedFunction (message : String)
  | wrongObjectType (message : String)
  | invalidParameterValue (message : String)
  | undefinedColumn (name : String)
  | ambiguousColumn (name : String)
  | missingFromEntry (table : String)
  | unsupported (message : String)
  /-- The panic of an index past the end of a row. -/
  | outOfBounds
  deriving DecidableEq

inductive ExecError
  | value (e : ValueError)
  | invalidColumnReference (message : String)
  | ambiguousOrderBy (name : String)
  | malformed (message : String)
  | grouping (message : String)
  | cardinalityViolation
  | subqueryColumns
  | derivedColumnAliasCount (expected got : ℕ)
  | stackDepthExceeded
  deriving DecidableEq

abbrev Result (α : Type) := Except ExecError α

/-- The `?` that turns an operator's error into the executor's. -/
def lift {α : Type} : Except ValueError α → Result α
  | .ok a => .ok a
  | .error e => .error (.value e)

/-! ## Equality -/

def isNull : Datum → Bool
  | .null => true
  | _ => false

def columnType : Datum → Option ColumnType
  | .null => none
  | .bool _ => some .bool
  | .int4 _ => some .int4
  | .int8 _ => some .int8
  | .text _ => some .text
  | .float8 _ => some .float8
  | .numeric _ => some (.numeric none)
  | .date _ => some .date
  | .time _ => some .time
  | .timestamp _ => some .timestamp
  | .timestamptz _ => some .timestamptz
  | .interval _ => some .interval
  | .bytea _ => some .bytea

def decimalValue (d : BigDecimal) : ℚ :=
  if 0 ≤ d.scale then d.digits / 10 ^ d.scale.toNat else d.digits * 10 ^ (-d.scale).toNat

/-- The 30-day month and 24-hour day estimate. -/
def canonicalMicros (i : Interval) : ℤ :=
  (i.months.toInt * 30 + i.days.toInt) * 86400000000 + i.micros.toInt

def canonicalBits (f : Float8) : Float8 :=
  if 0x7ff0000000000000 < f.bits &&& 0x7fffffffffffffff then ⟨0x7ff8000000000000⟩
  else if f.bits &&& 0x7fffffffffffffff = 0 then ⟨0⟩
  else f

/-- What equality compares and the hash is taken of. -/
def canon : Datum → Datum ⊕ ℚ ⊕ ℤ
  | .numeric d => .inr (.inl (decimalValue d))
  | .interval i => .inr (.inr (canonicalMicros i))
  | .float8 f => .inl (.float8 (canonicalBits f))
  | d => .inl d

def same (a b : Datum) : Bool := decide (canon a = canon b)

def sameRow (a b : List Datum) : Bool := decide (a.map canon = b.map canon)

/-! ## Operators -/

/-- The value layer under one evaluation context, as far as it is not spelled out here. -/
structure Builtins where
  parseNumeric : String → Option BigDecimal
  /-- A number as a double, by its place in the order of doubles, with NaN last. -/
  asF64 : Datum → Option ℤ
  floatArith : BinaryOp → Datum → Datum → Except TypeError Datum
  floatOfInt : ℤ → Float8
  addFloat : Float8 → Float8 → Float8
  divFloat : Float8 → Float8 → Float8
  temporalArith : BinaryOp → Datum → Datum → Except TypeError Datum
  numericDiv : BigDecimal → BigDecimal → Except TypeError BigDecimal
  negInterval : Interval → Except TypeError Interval
  timestamptzPlusInterval : Timestamp → Interval → Except TypeError Timestamp
  timestamptzDiff : Timestamp → Timestamp → Interval
  textOf : Datum → String
  cast : Datum → ColumnType → Except TypeError Datum
  likeMatch : String → String → Bool → Except TypeError Bool
  /-- Whether a value names a time zone. -/
  zoneArg : Datum → Except ValueError Unit
  /-- A function that is not lazy, by its name, applied to its values. -/
  call : String → List Datum → Except ValueError Datum
  /-- The type of a call of any function but an aggregate, by the DISTINCT mark and, unless the
  argument is `*`, whether each one is a bare NULL and its type. -/
  callType : String → Bool → Option (List (Bool × Except ValueError ColumnType)) →
    Except ValueError ColumnType
  castAllowed : ColumnType → ColumnType → Bool
  datetimeResultType : BinaryOp → ColumnType → ColumnType → Option ColumnType
  /-- `==` of queries. -/
  sameQuery : QueryExpr → QueryExpr → Bool
  sameQuery_refl : ∀ q, sameQuery q q = true

/-- A value layer without a calendar, functions and casts. -/
instance : Inhabited Builtins where
  default :=
    { parseNumeric := fun _ => none
      asF64 := fun _ => none
      floatArith := fun _ _ _ => .error .overflow
      floatOfInt := fun _ => ⟨0⟩
      addFloat := fun f _ => f
      divFloat := fun f _ => f
      temporalArith := fun _ _ _ => .error .overflow
      numericDiv := fun _ _ => .error .overflow
      negInterval := fun _ => .error .overflow
      timestamptzPlusInterval := fun _ _ => .error .overflow
      timestamptzDiff := fun _ _ => ⟨0, 0, 0⟩
      textOf := fun _ => ""
      cast := fun _ _ => .error .overflow
      likeMatch := fun _ _ _ => .error .invalidEscape
      zoneArg := fun _ => .error (.type .overflow)
      call := fun _ _ => .error (.type .overflow)
      callType := fun _ _ _ => .ok .text
      castAllowed := fun _ _ => false
      datetimeResultType := fun _ _ _ => none
      sameQuery := fun _ _ => true
      sameQuery_refl := fun _ => rfl }

def intLiteral (s : String) : Except TypeError Datum :=
  let n := s.toList.foldl (fun n c => 10 * n + (c.toNat - 48)) 0
  if n < 2 ^ 31 then .ok (.int4 (Int32.ofNat n))
  else if n < 2 ^ 63 then .ok (.int8 (Int64.ofNat n))
  else .error .overflow

def asI64 : Datum → Option ℤ
  | .int4 n => some n.toInt
  | .int8 n => some n.toInt
  | _ => none

def asNumeric : Datum → Option BigDecimal
  | .int4 n => some ⟨n.toInt, 0⟩
  | .int8 n => some ⟨n.toInt, 0⟩
  | .numeric d => some d
  | _ => none

def isFloat : Datum → Bool
  | .float8 _ => true
  | _ => false

def isNumeric : Datum → Bool
  | .numeric _ => true
  | _ => false

def isTemporal : Datum → Bool
  | .date _ | .time _ | .timestamp _ | .timestamptz _ | .interval _ => true
  | _ => false

/-- A negative display scale is written out. -/
def canonicalScale (d : BigDecimal) : BigDecimal :=
  if d.scale < 0 then ⟨d.digits * 10 ^ (-d.scale).toNat, 0⟩ else d

def addDecimal (a b : BigDecimal) : BigDecimal :=
  let scale := max a.scale b.scale
  canonicalScale
    ⟨a.digits * 10 ^ (scale - a.scale).toNat + b.digits * 10 ^ (scale - b.scale).toNat, scale⟩

def mulDecimal (a b : BigDecimal) : BigDecimal :=
  canonicalScale ⟨a.digits * b.digits, a.scale + b.scale⟩

/-- Checked arithmetic on 32 bits if both are, else on 64. -/
def intArith (f : ℤ → ℤ → ℤ) (a b : Datum) : Except TypeError Datum :=
  match a, b with
  | .int4 x, .int4 y =>
    let r := f x.toInt y.toInt
    if -2 ^ 31 ≤ r ∧ r < 2 ^ 31 then .ok (.int4 (Int32.ofInt r)) else .error .overflow
  | a, b =>
    match asI64 a, asI64 b with
    | some x, some y =>
      let r := f x y
      if -2 ^ 63 ≤ r ∧ r < 2 ^ 63 then .ok (.int8 (Int64.ofInt r)) else .error .overflow
    | _, _ => .error (.typeMismatch "operator requires integer operands")

namespace Builtins

variable (B : Builtins)

def arith (op : BinaryOp) (a b : Datum) : Except TypeError Datum :=
  if isNull a || isNull b then .ok .null
  else if isTemporal a || isTemporal b then B.temporalArith op a b
  else if isFloat a || isFloat b then B.floatArith op a b
  else if isNumeric a || isNumeric b then
    match asNumeric a, asNumeric b with
    | some x, some y =>
      match op with
      | .sub => .ok (.numeric (addDecimal x ⟨-y.digits, y.scale⟩))
      | .mul => .ok (.numeric (mulDecimal x y))
      | .div => (B.numericDiv x y).map .numeric
      | _ => .ok (.numeric (addDecimal x y))
    | _, _ => .error (.typeMismatch "operator requires numeric operands")
  else
    match op with
    | .sub => intArith (· - ·) a b
    | .mul => intArith (· * ·) a b
    | .div => if asI64 b = some 0 then .error .divisionByZero else intArith Int.tdiv a b
    | _ => intArith (· + ·) a b

def cannotCompare (a b : Datum) : TypeError :=
  let name (d : Datum) := ((columnType d).map ColumnType.name).getD "unknown"
  .typeMismatch ("cannot compare " ++ name a ++ " and " ++ name b)

def instant (dt : DateTime) : ℤ := dt.date.day * 86400000000000 + dt.time.nanos

def midnight (d : Date) : ℤ := d.day * 86400000000000

def compare (a b : Datum) : Except TypeError (Option Ordering) :=
  if isNull a || isNull b then .ok none
  else
    match a, b with
    | .text x, .text y => .ok (some (Ord.compare x y))
    | .bool x, .bool y => .ok (some (Ord.compare x y))
    | .date x, .date y => .ok (some (Ord.compare x.day y.day))
    | .time x, .time y => .ok (some (Ord.compare x.nanos y.nanos))
    | .timestamp x, .timestamp y => .ok (some (Ord.compare (instant x) (instant y)))
    | .timestamptz x, .timestamptz y => .ok (some (Ord.compare x.nanos y.nanos))
    | .interval x, .interval y =>
      .ok (some (Ord.compare (canonicalMicros x) (canonicalMicros y)))
    | .date d, .timestamp t => .ok (some (Ord.compare (midnight d) (instant t)))
    | .timestamp t, .date d => .ok (some (Ord.compare (instant t) (midnight d)))
    | a, b =>
      if isFloat a || isFloat b then
        match B.asF64 a, B.asF64 b with
        | some x, some y => .ok (some (Ord.compare x y))
        | _, _ => .error (cannotCompare a b)
      else if isNumeric a || isNumeric b then
        match asNumeric a, asNumeric b with
        | some x, some y => .ok (some (Ord.compare (decimalValue x) (decimalValue y)))
        | _, _ => .error (cannotCompare a b)
      else
        match asI64 a, asI64 b with
        | some x, some y => .ok (some (Ord.compare x y))
        | _, _ => .error (cannotCompare a b)

end Builtins

def asBool : Datum → Except TypeError (Option Bool)
  | .null => .ok none
  | .bool b => .ok (some b)
  | _ => .error (.typeMismatch "argument of boolean operator must be boolean")

def truth : Option Bool → Datum
  | none => .null
  | some b => .bool b

def and3 : Option Bool → Option Bool → Option Bool
  | some false, _ | _, some false => some false
  | some true, some true => some true
  | _, _ => none

def or3 : Option Bool → Option Bool → Option Bool
  | some true, _ | _, some true => some true
  | some false, some false => some false
  | _, _ => none

def logical (f : Option Bool → Option Bool → Option Bool) (a b : Datum) :
    Except TypeError Datum := do
  let x ← asBool a
  let y ← asBool b
  pure (truth (f x y))

def negation (a : Datum) : Except TypeError Datum := do
  let x ← asBool a
  pure (truth (x.map (!·)))

end Crabgresql.Executor
