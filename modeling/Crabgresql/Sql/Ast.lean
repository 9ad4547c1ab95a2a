import Crabgresql.Pgtypes

/-!
# Statements and queries

The abstract syntax the parser returns. A query has its ORDER BY, LIMIT, OFFSET and
locking clause at two levels: a SELECT has them, and so has the query expression
around it.
-/

namespace Crabgresql.Sql

open Pgtypes (ColumnType Datum)

inductive UnaryOp
  | not | neg
  deriving DecidableEq

inductive BinaryOp
  | add | sub | mul | div | concat | eq | ne | lt | le | gt | ge | and | or
  deriving DecidableEq

inductive SetOp
  | union | intersect | except
  deriving DecidableEq

inductive JoinKind
  | inner | left | right | full | cross
  deriving DecidableEq

inductive RowLockStrength
  | forUpdate | forShare
  deriving DecidableEq

mutual

inductive Expr
  | intLiteral (s : String)
  | numericLiteral (s : String)
  | stringLiteral (s : String)
  | boolLiteral (b : Bool)
  | nullLiteral
  | column (table : Option String) (name : String)
  | param (n : ℕ)
  | unary (op : UnaryOp) (expr : Expr)
  | binary (op : BinaryOp) (left right : Expr)
  | func (call : FuncCall)
  | isNull (expr : Expr) (negated : Bool)
  | inList (expr : Expr) (list : List Expr) (negated : Bool)
  | between (expr low high : Expr) (negated : Bool)
  | like (expr pattern : Expr) (negated caseInsensitive : Bool)
  | case (operand : Option Expr) (whens : List (Expr × Expr)) (elseResult : Option Expr)
  | cast (expr : Expr) (ty : ColumnType)
  | scalarSubquery (query : QueryExpr)
  | exists (query : QueryExpr)
  | inSubquery (expr : Expr) (subquery : QueryExpr) (negated : Bool)
  | quantified (expr : Expr) (op : BinaryOp) (all : Bool) (subquery : QueryExpr)
  /-- A subquery the executor has replaced by its value; the parser never builds one. -/
  | const (value : Datum) (ty : ColumnType)

structure FuncCall where
  name : String
  distinct : Bool
  args : FuncArgs

inductive FuncArgs
  | star
  | exprs (es : List Expr)

structure OrderItem where
  expr : Expr
  asc : Bool

inductive SelectItem
  | wildcard
  | qualifiedWildcard (table : String)
  | expr (expr : Expr) (alias_ : Option String)

inductive JoinConstraint
  | on (expr : Expr)
  | using (columns : List String)
  | natural
  | none

inductive TableExpr
  | table (name : String) (alias_ : Option String)
  | derived (subquery : QueryExpr) (alias_ : String) (columns : Option (List String))
  | join (left right : TableExpr) (kind : JoinKind) (constraint : JoinConstraint)

structure SelectStmt where
  projection : List SelectItem
  from_ : List TableExpr
  filter : Option Expr
  distinct : Bool
  groupBy : List Expr
  having_ : Option Expr
  orderBy : List OrderItem
  limit : Option ℤ
  offset : Option ℤ
  locking : Option RowLockStrength

inductive QueryBody
  | select (s : SelectStmt)
  | values (rows : List (List Expr))
  | nested (q : QueryExpr)

inductive SetExpr
  | query (body : QueryBody)
  | setOp (op : SetOp) (all : Bool) (left right : SetExpr)

structure Cte where
  name : String
  columns : Option (List String)
  query : QueryExpr

structure WithClause where
  recursive : Bool
  ctes : List Cte

structure QueryExpr where
  with_ : Option WithClause
  body : SetExpr
  orderBy : List OrderItem
  limit : Option ℤ
  offset : Option ℤ
  locking : Option RowLockStrength

end

/-! ## Nesting depth

The number of nodes on the longest path from the root of a tree to a leaf. -/

mutual

@[simp] def Expr.depth : Expr → ℕ
  | .intLiteral _ | .numericLiteral _ | .stringLiteral _ | .boolLiteral _ | .nullLiteral
  | .column _ _ | .param _ | .const _ _ => 1
  | .unary _ e | .isNull e _ | .cast e _ => 1 + e.depth
  | .binary _ l r => 1 + max l.depth r.depth
  | .func call => 1 + call.depth
  | .inList e list _ => 1 + max e.depth (exprsDepth list)
  | .between e low high _ => 1 + max e.depth (max low.depth high.depth)
  | .like e pattern _ _ => 1 + max e.depth pattern.depth
  | .case operand whens elseResult =>
    1 + max (exprDepth? operand) (max (whensDepth whens) (exprDepth? elseResult))
  | .scalarSubquery q | .exists q => 1 + q.depth
  | .inSubquery e q _ | .quantified e _ _ q => 1 + max e.depth q.depth

@[simp] def FuncCall.depth : FuncCall → ℕ
  | ⟨_, _, args⟩ => args.depth

@[simp] def FuncArgs.depth : FuncArgs → ℕ
  | .star => 0
  | .exprs es => exprsDepth es

@[simp] def exprDepth? : Option Expr → ℕ
  | none => 0
  | some e => e.depth

@[simp] def exprsDepth : List Expr → ℕ
  | [] => 0
  | e :: es => max e.depth (exprsDepth es)

@[simp] def whensDepth : List (Expr × Expr) → ℕ
  | [] => 0
  | (cond, result) :: whens => max (max cond.depth result.depth) (whensDepth whens)

@[simp] def orderDepth : List OrderItem → ℕ
  | [] => 0
  | ⟨e, _⟩ :: items => max e.depth (orderDepth items)

@[simp] def itemsDepth : List SelectItem → ℕ
  | [] => 0
  | .expr e _ :: items => max e.depth (itemsDepth items)
  | _ :: items => itemsDepth items

@[simp] def JoinConstraint.depth : JoinConstraint → ℕ
  | .on e => e.depth
  | _ => 0

@[simp] def TableExpr.depth : TableExpr → ℕ
  | .table _ _ => 1
  | .derived q _ _ => 1 + q.depth
  | .join l r _ c => 1 + max l.depth (max r.depth c.depth)

@[simp] def tablesDepth : List TableExpr → ℕ
  | [] => 0
  | t :: ts => max t.depth (tablesDepth ts)

@[simp] def SelectStmt.depth : SelectStmt → ℕ
  | ⟨projection, from_, filter, _, groupBy, having_, orderBy, _, _, _⟩ =>
    1 + max (itemsDepth projection) (max (tablesDepth from_) (max (exprDepth? filter)
      (max (exprsDepth groupBy) (max (exprDepth? having_) (orderDepth orderBy)))))

@[simp] def rowsDepth : List (List Expr) → ℕ
  | [] => 0
  | row :: rows => max (exprsDepth row) (rowsDepth rows)

@[simp] def QueryBody.depth : QueryBody → ℕ
  | .select s => s.depth
  | .values rows => 1 + rowsDepth rows
  | .nested q => 1 + q.depth

@[simp] def SetExpr.depth : SetExpr → ℕ
  | .query body => 1 + body.depth
  | .setOp _ _ l r => 1 + max l.depth r.depth

@[simp] def ctesDepth : List Cte → ℕ
  | [] => 0
  | ⟨_, _, q⟩ :: ctes => max q.depth (ctesDepth ctes)

@[simp] def withDepth? : Option WithClause → ℕ
  | none => 0
  | some ⟨_, ctes⟩ => 1 + ctesDepth ctes

@[simp] def QueryExpr.depth : QueryExpr → ℕ
  | ⟨with_, body, orderBy, _, _, _⟩ =>
    1 + max (withDepth? with_) (max body.depth (orderDepth orderBy))

end

end Crabgresql.Sql
