import Crabgresql.Executor.Trees

/-!
# Aggregates and grouped expressions

An aggregate query computes, for every group, the aggregates its expressions contain.
Before any row is read every expression is checked to be built from aggregates, the
grouping expressions and constants; afterwards it is evaluated with the group's key
and aggregate results in place of them. A grouping expression is recognised by `==`.
-/

namespace Crabgresql.Executor

open Pgtypes Sql

variable (B : Builtins)

/-! ## Equality of expressions -/

mutual

/-- `==` of expressions; folded subqueries are compared as values. -/
def sameExpr : Expr → Expr → Bool
  | .intLiteral s => fun | .intLiteral s' => s == s' | _ => false
  | .numericLiteral s => fun | .numericLiteral s' => s == s' | _ => false
  | .stringLiteral s => fun | .stringLiteral s' => s == s' | _ => false
  | .boolLiteral b => fun | .boolLiteral b' => b == b' | _ => false
  | .nullLiteral => fun | .nullLiteral => true | _ => false
  | .column t n => fun | .column t' n' => t == t' && n == n' | _ => false
  | .param n => fun | .param n' => n == n' | _ => false
  | .unary op e => fun | .unary op' e' => op == op' && sameExpr e e' | _ => false
  | .binary op l r => fun
    | .binary op' l' r' => op == op' && sameExpr l l' && sameExpr r r'
    | _ => false
  | .func fc => fun | .func fc' => sameCall fc fc' | _ => false
  | .isNull e n => fun | .isNull e' n' => sameExpr e e' && n == n' | _ => false
  | .inList e es n => fun
    | .inList e' es' n' => sameExpr e e' && sameExprs es es' && n == n'
    | _ => false
  | .between e lo hi n => fun
    | .between e' lo' hi' n' => sameExpr e e' && sameExpr lo lo' && sameExpr hi hi' && n == n'
    | _ => false
  | .like e p n ci => fun
    | .like e' p' n' ci' => sameExpr e e' && sameExpr p p' && n == n' && ci == ci'
    | _ => false
  | .case op ws els => fun
    | .case op' ws' els' => sameExpr? op op' && sameWhens ws ws' && sameExpr? els els'
    | _ => false
  | .cast e ty => fun | .cast e' ty' => sameExpr e e' && ty == ty' | _ => false
  | .scalarSubquery q => fun | .scalarSubquery q' => B.sameQuery q q' | _ => false
  | .exists q => fun | .exists q' => B.sameQuery q q' | _ => false
  | .inSubquery e q n => fun
    | .inSubquery e' q' n' => sameExpr e e' && B.sameQuery q q' && n == n'
    | _ => false
  | .quantified e op all q => fun
    | .quantified e' op' all' q' =>
      sameExpr e e' && op == op' && all == all' && B.sameQuery q q'
    | _ => false
  | .const v ty => fun | .const v' ty' => same v v' && ty == ty' | _ => false

def sameCall : FuncCall → FuncCall → Bool
  | ⟨name, distinct, args⟩ => fun fc =>
    name == fc.name && distinct == fc.distinct && sameArgs args fc.args

def sameArgs : FuncArgs → FuncArgs → Bool
  | .star => fun | .star => true | _ => false
  | .exprs es => fun | .exprs es' => sameExprs es es' | _ => false

def sameExprs : List Expr → List Expr → Bool
  | [] => fun | [] => true | _ => false
  | e :: es => fun | e' :: es' => sameExpr e e' && sameExprs es es' | _ => false

def sameExpr? : Option Expr → Option Expr → Bool
  | none => fun | none => true | _ => false
  | some e => fun | some e' => sameExpr e e' | _ => false

def sameWhens : List (Expr × Expr) → List (Expr × Expr) → Bool
  | [] => fun | [] => true | _ => false
  | (c, r) :: ws => fun
    | (c', r') :: ws' => sameExpr c c' && sameExpr r r' && sameWhens ws ws'
    | _ => false

end

mutual

@[simp] theorem sameExpr_self : ∀ e : Expr, sameExpr B e e = true
  | .intLiteral _ | .numericLiteral _ | .stringLiteral _ | .boolLiteral _ | .nullLiteral
  | .column _ _ | .param _ | .const _ _ => by simp [sameExpr, same]
  | .unary _ e | .isNull e _ | .cast e _ => by simp [sameExpr, sameExpr_self e]
  | .binary _ l r | .like l r _ _ => by simp [sameExpr, sameExpr_self l, sameExpr_self r]
  | .func fc => by simp [sameExpr, sameCall_self fc]
  | .inList e es _ => by simp [sameExpr, sameExpr_self e, sameExprs_self es]
  | .between e lo hi _ => by
    simp [sameExpr, sameExpr_self e, sameExpr_self lo, sameExpr_self hi]
  | .case op ws els => by
    simp [sameExpr, sameExpr?_self op, sameWhens_self ws, sameExpr?_self els]
  | .scalarSubquery q | .exists q => by simp [sameExpr, B.sameQuery_refl]
  | .inSubquery e q _ | .quantified e _ _ q => by
    simp [sameExpr, sameExpr_self e, B.sameQuery_refl]

theorem sameCall_self : ∀ fc : FuncCall, sameCall B fc fc = true
  | ⟨_, _, args⟩ => by simp [sameCall, sameArgs_self args]

theorem sameArgs_self : ∀ args : FuncArgs, sameArgs B args args = true
  | .star => rfl
  | .exprs es => by simp [sameArgs, sameExprs_self es]

theorem sameExprs_self : ∀ es : List Expr, sameExprs B es es = true
  | [] => rfl
  | e :: es => by simp [sameExprs, sameExpr_self e, sameExprs_self es]

theorem sameExpr?_self : ∀ e : Option Expr, sameExpr? B e e = true
  | none => rfl
  | some e => by simp [sameExpr?, sameExpr_self e]

theorem sameWhens_self : ∀ ws : List (Expr × Expr), sameWhens B ws ws = true
  | [] => rfl
  | (c, r) :: ws => by simp [sameWhens, sameExpr_self c, sameExpr_self r, sameWhens_self ws]

end

/-! ## Types -/

def aggregate? : Expr → Option FuncCall
  | .func fc => if (aggregateFunc fc.name).isSome then some fc else none
  | _ => none

def containsAggregate (e : Expr) : Bool :=
  e.pass (fun child e => (aggregate? e).isSome || e.children.any child) false

def undefinedForArg (name : String) (t : ColumnType) : ValueError :=
  .undefinedFunction ("function " ++ name ++ "(" ++ t.name ++ ") does not exist")

def isNumber (t : ColumnType) : Bool := t == .int4 || t == .int8 || t == .float8 || t.isNumeric

def numericResultType (lt rt : ColumnType) : ColumnType :=
  if lt = .float8 ∨ rt = .float8 then .float8
  else if lt.isNumeric || rt.isNumeric then .numeric none
  else if lt = .int4 ∧ rt = .int4 then .int4
  else .int8

def unifyTypes (a b : ColumnType) : Except ValueError ColumnType :=
  if a = b then .ok a
  else if (a = .int4 ∧ b = .int8) ∨ (a = .int8 ∧ b = .int4) then .ok .int8
  else if a = .float8 ∨ b = .float8 then .ok .float8
  else if isNumber a && isNumber b then .ok (.numeric none)
  else .error (.typeMismatch ("types " ++ a.name ++ " and " ++ b.name ++ " cannot be matched"))

/-- The types of the branches of a CASE; a bare NULL has none. -/
def unifyBranches : List (Bool × Except ValueError ColumnType) → Option ColumnType → Except ValueError ColumnType
  | [], acc => .ok (acc.getD .text)
  | (true, _) :: branches, acc => unifyBranches branches acc
  | (false, t) :: branches, acc => do
    let t ← t
    match acc with
    | none => unifyBranches branches (some t)
    | some a => do
      let u ← unifyTypes a t
      unifyBranches branches (some u)

def isBareNull : Expr → Bool
  | .nullLiteral => true
  | _ => false

def funcResultType (child : Expr → Except ValueError ColumnType) (fc : FuncCall) : Except ValueError ColumnType :=
  match aggregateFunc fc.name, fc.args with
  | none, _ => .error (undefinedFunction fc.name)
  | some .count, .star | some .count, .exprs [_] => .ok .int8
  | some .sum, .exprs [arg] => do
    let t ← child arg
    if t = .int4 ∨ t = .int8 then .ok .int8
    else if t = .float8 then .ok .float8
    else if t.isNumeric then .ok (.numeric none)
    else .error (undefinedForArg "sum" t)
  | some .avg, .exprs [arg] => do
    let t ← child arg
    if t = .float8 then .ok .float8
    else if isNumber t then .ok (.numeric none)
    else .error (undefinedForArg "avg" t)
  | some .min, .exprs [arg] | some .max, .exprs [arg] => child arg
  | some _, _ => .error (undefinedFunction fc.name)

def inferNode (scope : Scope) (child : Expr → Except ValueError ColumnType) : Expr → Except ValueError ColumnType
  | .intLiteral s => do
    match ← (intLiteral s).mapError .type with
    | .int4 _ => .ok .int4
    | _ => .ok .int8
  | .numericLiteral _ => .ok (.numeric none)
  | .stringLiteral _ | .nullLiteral => .ok .text
  | .boolLiteral _ | .isNull _ _ | .inList _ _ _ | .between _ _ _ _ | .like _ _ _ _
  | .exists _ | .inSubquery _ _ _ | .quantified _ _ _ _ | .unary .not _ => .ok .bool
  | .param _ => .error (.unsupported "query parameters ($n) are not supported")
  | .column table name => do
    let idx ← scope.resolve table name
    match scope[idx]? with
    | some c => .ok c.ty
    | none => .error .outOfBounds
  | .unary .neg e => child e
  | .binary op l r =>
    match op with
    | .add | .sub | .mul | .div => do
      let lt ← child l
      let rt ← child r
      .ok ((B.datetimeResultType op lt rt).getD (numericResultType lt rt))
    | .concat => do
      let lt ← child l
      let rt ← child r
      if lt ≠ .text ∧ rt ≠ .text then
        .error (.undefinedFunction ("operator does not exist: " ++ lt.name ++ " || " ++ rt.name))
      else .ok .text
    | _ => .ok .bool
  | .func fc =>
    if isCall fc.name then
      B.callType fc.name fc.distinct <|
        match fc.args with
        | .star => none
        | .exprs es => some (es.map fun e => (isBareNull e, child e))
    else funcResultType child fc
  | .case _ whens elseResult =>
    unifyBranches ((whens.map Prod.snd ++ elseResult.toList).map fun e => (isBareNull e, child e))
      none
  | .cast e ty => do
    let t ← child e
    if B.castAllowed t ty then .ok ty
    else .error (.type (.cannotCast t.name ty.name))
  | .const _ ty => .ok ty
  | .scalarSubquery _ =>
    .error (.unsupported "internal: scalar subquery must be resolved before type inference")

def inferType (e : Expr) (scope : Scope) : Except ValueError ColumnType :=
  e.pass (inferNode B scope) (.error .outOfBounds)

/-! ## Aggregates -/

structure AggSpec where
  func : AggFunc
  arg : Option Expr
  argType : Option ColumnType
  distinct : Bool

def sameSpec (s s' : AggSpec) : Bool :=
  s.func == s'.func && sameExpr? B s.arg s'.arg && s.argType == s'.argType &&
    s.distinct == s'.distinct

def specOf (scope : Scope) (fc : FuncCall) : Result AggSpec :=
  match aggregateFunc fc.name, fc.args with
  | none, _ => .error (.value (undefinedFunction fc.name))
  | some .count, .star => .ok ⟨.count, none, none, fc.distinct⟩
  | some func, .exprs [arg] => do
    if containsAggregate arg then
      .error (.grouping "aggregate function calls cannot be nested")
    else
      let t ← lift (inferType B arg scope)
      if (func = .sum ∨ func = .avg) ∧ ¬ isNumber t then
        .error (.value (undefinedForArg fc.name t))
      else .ok ⟨func, some arg, some t, fc.distinct⟩
  | some _, _ => .error (.value (undefinedFunction fc.name))

def collectNode (scope : Scope) (child : Expr → List AggSpec → Result (List AggSpec)) (e : Expr)
    (specs : List AggSpec) : Result (List AggSpec) :=
  match aggregate? e with
  | some fc => do
    let spec ← specOf B scope fc
    pure (if specs.any (sameSpec B · spec) then specs else specs ++ [spec])
  | none =>
    match e with
    | .func fc =>
      if isCall fc.name then e.children.foldlM (fun specs s => child s specs) specs
      else .error (.value (undefinedFunction fc.name))
    | e => e.children.foldlM (fun specs s => child s specs) specs

/-- The aggregates of an expression after those found before, each one once. -/
def collectSpecs (scope : Scope) (e : Expr) : List AggSpec → Result (List AggSpec) :=
  e.pass (collectNode B scope) .ok

def ungroupedColumn (name : String) : ExecError :=
  .grouping ("column \"" ++ name ++
    "\" must appear in the GROUP BY clause or be used in an aggregate function")

def validateNode (groupBy : List Expr) (child : Expr → Result Unit) (e : Expr) : Result Unit :=
  if (aggregate? e).isSome || groupBy.any (sameExpr B · e) then .ok ()
  else
    match e with
    | .column _ name => .error (ungroupedColumn name)
    | .func fc =>
      if isCall fc.name then forM e.children child
      else .error (.value (undefinedFunction fc.name))
    | e => forM e.children child

/-- Whether the expression is built from aggregates, grouping expressions and constants. -/
def validateGrouped (groupBy : List Expr) (e : Expr) : Result Unit :=
  e.pass (validateNode B groupBy) (.ok ())

/-! ## The grouped evaluator -/

/-- A group as its expressions see it. -/
structure Group where
  groupBy : List Expr
  key : List Datum
  specs : List AggSpec
  results : List Datum

def maxGroupedDepth : ℕ := 150

def Group.node (G : Group) (scope : Scope) (child : Expr → Result Datum) (e : Expr) :
    Result Datum :=
  match aggregate? e with
  | some fc => do
    let spec ← specOf B scope fc
    match G.specs.findIdx? (sameSpec B · spec) with
    | some i => cell G.results i
    | none => .error (.grouping "aggregate not resolved")
  | none =>
    match G.groupBy.findIdx? (sameExpr B · e) with
    | some i => cell G.key i
    | none =>
      evalNode B child (fun _ name => .error (ungroupedColumn name))
        (fun fc => .value (undefinedFunction fc.name)) e

def evalGroupedWithin (G : Group) (scope : Scope) : ℕ → Expr → Result Datum :=
  descend (G.node B scope) (.error .stackDepthExceeded)

def evalGrouped (G : Group) (scope : Scope) (e : Expr) : Result Datum :=
  evalGroupedWithin B G scope (maxGroupedDepth + 1) e

end Crabgresql.Executor
