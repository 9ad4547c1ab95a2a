import Crabgresql.Executor.Values

/-!
# Expression evaluation

An expression is evaluated against one row. Both evaluators, that of a row and that
of a group, count their recursion down from the same limit and share every arm but
those of columns and aggregates; a call of the evaluator on a list of expressions is
the list of its results, read in order up to the one that decides.
-/

namespace Crabgresql.Executor

open Pgtypes Sql

/-! ## Scopes -/

structure ColumnBinding where
  qualifier : Option String
  name : String
  ty : ColumnType
  deriving DecidableEq

abbrev Scope := List ColumnBinding

/-- Whether a reference, qualified or not, can mean the column. -/
def ColumnBinding.answers (qualifier : Option String) (name : String) (c : ColumnBinding) : Bool :=
  qualifier.all (fun q => c.qualifier == some q) && c.name == name

def Scope.resolve (scope : Scope) (qualifier : Option String) (name : String) :
    Except ValueError ℕ :=
  match qualifier.filter fun q => scope.all fun c => c.qualifier != some q with
  | some q => .error (.missingFromEntry q)
  | none =>
    match scope.findIdxs (·.answers qualifier name) with
    | [] => .error (.undefinedColumn name)
    | [i] => .ok i
    | _ => .error (.ambiguousColumn name)

structure Relation where
  scope : Scope
  rows : List (List Datum)

/-! ## Function names -/

def isScalar (name : String) : Bool :=
  ["length", "char_length", "character_length", "upper", "lower", "btrim", "ltrim", "rtrim",
    "substr", "substring", "replace", "concat", "abs", "mod", "coalesce", "nullif", "greatest",
    "least", "floor", "ceil", "ceiling", "round", "trunc", "sign", "sqrt", "power", "pow", "exp",
    "ln", "log", "pi", "lpad", "rpad", "left", "right", "repeat", "reverse", "strpos", "initcap",
    "ascii", "chr"].contains name

def isClockFunc (name : String) : Bool :=
  ["now", "current_timestamp", "transaction_timestamp", "statement_timestamp",
    "clock_timestamp", "current_date", "current_time", "localtime", "localtimestamp"].contains name

def isDatetimeFunc (name : String) : Bool :=
  isClockFunc name ||
    ["extract", "date_part", "date_trunc", "age", "timezone"].contains name

def isFormatFunc (name : String) : Bool :=
  ["to_char", "to_timestamp", "to_date", "make_date", "make_time", "make_timestamp",
    "make_timestamptz", "make_interval", "justify_days", "justify_hours",
    "justify_interval"].contains name

inductive AggFunc
  | count | sum | avg | min | max
  deriving DecidableEq

def aggregateFunc : String → Option AggFunc
  | "count" => some .count
  | "sum" => some .sum
  | "avg" => some .avg
  | "min" => some .min
  | "max" => some .max
  | _ => none

def undefinedFunction (name : String) : ValueError :=
  .undefinedFunction ("function " ++ name ++ "(...) does not exist")

def requireArity (name : String) (ok : Bool) : Result Unit :=
  if ok then .ok () else .error (.value (undefinedFunction name))

/-! ## The shared arms -/

section arms

variable (B : Builtins)

def evalInList (x : Datum) (negated : Bool) : List (Result Datum) → Bool → Result Datum
  | [], sawNull => .ok (if sawNull then .null else .bool negated)
  | item :: items, sawNull => do
    let v ← item
    match ← lift ((B.compare x v).mapError .type) with
    | some .eq => .ok (.bool !negated)
    | some _ => evalInList x negated items sawNull
    | none => evalInList x negated items true

def cmpHolds : BinaryOp → Ordering → Bool
  | .ne, o => o != .eq
  | .lt, o => o == .lt
  | .le, o => o != .gt
  | .gt, o => o == .gt
  | .ge, o => o != .lt
  | _, o => o == .eq

def applyUnary (op : UnaryOp) (v : Datum) : Except TypeError Datum :=
  match op, v with
  | .not, v => negation v
  | .neg, .interval i => (B.negInterval i).map .interval
  | .neg, v => B.arith .sub (.int4 0) v

/-- What needs the session's time zone; nothing if the pair is not of that kind. -/
def applyTimestamptzArith (op : BinaryOp) (l r : Datum) : Except TypeError (Option Datum) :=
  match op, l, r with
  | .add, .timestamptz t, .interval i | .add, .interval i, .timestamptz t =>
    (B.timestamptzPlusInterval t i).map (some ∘ .timestamptz)
  | .sub, .timestamptz t, .interval i => do
    let neg ← B.negInterval i
    (B.timestamptzPlusInterval t neg).map (some ∘ .timestamptz)
  | .sub, .timestamptz a, .timestamptz b => .ok (some (.interval (B.timestamptzDiff a b)))
  | _, _, _ => .ok none

def applyBinary (op : BinaryOp) (l r : Datum) : Except TypeError Datum :=
  match op with
  | .add | .sub => do
    match ← applyTimestamptzArith B op l r with
    | some v => pure v
    | none => B.arith op l r
  | .mul | .div => B.arith op l r
  | .and => logical and3 l r
  | .or => logical or3 l r
  | .concat =>
    .ok (if isNull l || isNull r then .null else .text (B.textOf l ++ B.textOf r))
  | .eq | .ne | .lt | .le | .gt | .ge =>
    (B.compare l r).map fun o => truth (o.map (cmpHolds op))

def evalBetween (x lo hi : Datum) (negated : Bool) : Except TypeError Datum := do
  let ge ← applyBinary B .ge x lo
  let le ← applyBinary B .le x hi
  let res ← logical and3 ge le
  if negated then negation res else pure res

def evalLike (s pat : Datum) (negated caseInsensitive : Bool) : Except ValueError Datum :=
  match s, pat with
  | .null, _ | _, .null => .ok .null
  | .text s, .text p =>
    ((B.likeMatch s p caseInsensitive).map fun m => .bool (m != negated)).mapError .type
  | _, _ => .error (.typeMismatch "LIKE/ILIKE operands must be type text")

def searchedCase (otherwise : Result Datum) : List (Result Datum × Result Datum) → Result Datum
  | [] => otherwise
  | (cond, result) :: whens => do
    match ← cond with
    | .bool true => result
    | .bool false | .null => searchedCase otherwise whens
    | _ => .error (.value (.typeMismatch "argument of CASE/WHEN must be type boolean"))

def simpleCase (ov : Datum) (otherwise : Result Datum) :
    List (Result Datum × Result Datum) → Result Datum
  | [] => otherwise
  | (val, result) :: whens => do
    let v ← val
    match ← lift ((B.compare ov v).mapError .type) with
    | some .eq => result
    | _ => simpleCase ov otherwise whens

def evalCase (operand : Option (Result Datum)) (whens : List (Result Datum × Result Datum))
    (otherwise : Result Datum) : Result Datum :=
  match operand with
  | none => searchedCase otherwise whens
  | some op => do
    let ov ← op
    simpleCase B ov otherwise whens

def coalesce : List (Result Datum) → Result Datum
  | [] => .ok .null
  | arg :: args => do
    let v ← arg
    if isNull v then coalesce args else .ok v

def extremum (want : Ordering) : List (Result Datum) → Option Datum → Result Datum
  | [], best => .ok (best.getD .null)
  | arg :: args, best => do
    let v ← arg
    if isNull v then extremum want args best
    else
      match best with
      | none => extremum want args (some v)
      | some cur =>
        let ord ← lift ((B.compare v cur).mapError .type)
        extremum want args (some (if ord = some want then v else cur))

def nullIf (a b : Result Datum) : Result Datum := do
  let a ← a
  let b ← b
  let ord ← lift ((B.compare a b).mapError .type)
  pure (if ord = some .eq then .null else a)

def evalScalar (name : String) (distinct : Bool) (args : List (Result Datum)) : Result Datum := do
  if distinct then
    .error (.value (.wrongObjectType
      ("DISTINCT specified, but " ++ name ++ " is not an aggregate function")))
  else
    match name with
    | "coalesce" => do
      requireArity name (!args.isEmpty)
      coalesce args
    | "greatest" => do
      requireArity name (!args.isEmpty)
      extremum B .gt args none
    | "least" => do
      requireArity name (!args.isEmpty)
      extremum B .lt args none
    | "nullif" =>
      match args with
      | [a, b] => nullIf B a b
      | _ => .error (.value (undefinedFunction name))
    | name => do
      let vals ← args.mapM id
      lift (B.call name vals)

/-- Two values, and then the function unless one of them is NULL. -/
def strict2 (name : String) (a b : Result Datum) (more : List Datum) : Result Datum := do
  let a ← a
  let b ← b
  if isNull a || isNull b then pure .null else lift (B.call name (a :: b :: more))

/-- The first argument of EXTRACT is a name and is not evaluated. -/
def evalDatetime (name : String) (exprs : List Expr) (args : List (Result Datum)) : Result Datum :=
  let undefined := .error (.value (undefinedFunction name))
  match name with
  | "extract" =>
    match exprs, args with
    | [.stringLiteral field, _], [_, source] => strict2 B name (.ok (.text field)) source []
    | [_, _], _ => .error (.value (.undefinedFunction "extract requires a field name"))
    | _, _ => undefined
  | "date_part" | "timezone" =>
    match args with
    | [a, b] => strict2 B name a b []
    | _ => undefined
  | "date_trunc" =>
    match args with
    | [unit, source] => strict2 B name unit source []
    | [unit, source, zone] => do
      let u ← unit
      let s ← source
      let z ← zone
      lift (B.zoneArg z)
      strict2 B name (.ok u) (.ok s) [z]
    | _ => undefined
  | "age" =>
    match args with
    | [a] => do
      let a ← a
      if isNull a then pure .null else lift (B.call name [a])
    | [a, b] => do
      let a ← a
      if isNull a then pure .null else strict2 B name (.ok a) b []
    | _ => undefined
  | name => if args.isEmpty then lift (B.call name []) else undefined

def evalFormat (name : String) (args : List (Result Datum)) : Result Datum := do
  let vals ← args.mapM id
  lift (B.call name vals)

def isCall (name : String) : Bool := isScalar name || isDatetimeFunc name || isFormatFunc name

def evalFunc (child : Expr → Result Datum) (misplaced : FuncCall → ExecError) (fc : FuncCall) :
    Result Datum :=
  if isCall fc.name then
    match fc.args with
    | .star =>
      if isScalar fc.name && fc.distinct then evalScalar B fc.name true []
      else .error (.value (undefinedFunction fc.name))
    | .exprs es =>
      if isScalar fc.name then evalScalar B fc.name fc.distinct (es.map child)
      else if isDatetimeFunc fc.name then evalDatetime B fc.name es (es.map child)
      else evalFormat B fc.name (es.map child)
  else .error (misplaced fc)

def evalNode (child : Expr → Result Datum) (column : Option String → String → Result Datum)
    (misplaced : FuncCall → ExecError) : Expr → Result Datum
  | .intLiteral s => lift ((intLiteral s).mapError .type)
  | .numericLiteral s =>
    match B.parseNumeric s with
    | some d => .ok (.numeric d)
    | none => .error (.value (.type (.invalidText "numeric" s)))
  | .stringLiteral s => .ok (.text s)
  | .boolLiteral b => .ok (.bool b)
  | .nullLiteral => .ok .null
  | .param _ => .error (.value (.unsupported "query parameters ($n) are not supported"))
  | .column table name => column table name
  | .unary op e => do
    let v ← child e
    lift ((applyUnary B op v).mapError .type)
  | .binary op l r => do
    let l ← child l
    let r ← child r
    lift ((applyBinary B op l r).mapError .type)
  | .func fc => evalFunc B child misplaced fc
  | .isNull e negated => do
    let v ← child e
    pure (.bool (isNull v != negated))
  | .inList e list negated => do
    let x ← child e
    if isNull x then pure .null else evalInList B x negated (list.map child) false
  | .between e low high negated => do
    let x ← child e
    let lo ← child low
    let hi ← child high
    lift ((evalBetween B x lo hi negated).mapError .type)
  | .like e pattern negated caseInsensitive => do
    let s ← child e
    let p ← child pattern
    lift (evalLike B s p negated caseInsensitive)
  | .case operand whens elseResult =>
    evalCase B (operand.map child) (whens.map fun w => (child w.1, child w.2))
      ((elseResult.map child).getD (.ok .null))
  | .cast e ty => do
    let v ← child e
    lift ((B.cast v ty).mapError .type)
  | .const value _ => .ok value
  | .scalarSubquery _ | .exists _ | .inSubquery _ _ _ | .quantified _ _ _ _ =>
    .error (.value (.unsupported "subqueries are only supported in SELECT"))

end arms

/-! ## The row evaluator -/

def maxEvalDepth : ℕ := 150

def funcInScalarContextError (fc : FuncCall) : ExecError :=
  if (aggregateFunc fc.name).isSome then
    .grouping ("aggregate function \"" ++ fc.name ++
      "\" is not allowed here (aggregates cannot be nested)")
  else .value (undefinedFunction fc.name)

/-- The element at a position the source indexes with. -/
def cell (row : List Datum) (i : ℕ) : Result Datum :=
  match row[i]? with
  | some v => .ok v
  | none => .error (.value .outOfBounds)

def columnValue (scope : Scope) (row : List Datum) (table : Option String) (name : String) :
    Result Datum := do
  let idx ← lift (scope.resolve table name)
  cell row idx

def evalWithin (B : Builtins) (scope : Scope) (row : List Datum) : ℕ → Expr → Result Datum
  | 0, _ => .error .stackDepthExceeded
  | n + 1, e =>
    evalNode B (evalWithin B scope row n) (columnValue scope row) funcInScalarContextError e

/-- `eval_depth` at recursion level `depth`. -/
def evalDepth (B : Builtins) (scope : Scope) (row : List Datum) (e : Expr) (depth : ℕ) :
    Result Datum := evalWithin B scope row (maxEvalDepth + 1 - depth) e

def eval (B : Builtins) (e : Expr) (scope : Scope) (row : List Datum) : Result Datum :=
  evalDepth B scope row e 0

end Crabgresql.Executor
