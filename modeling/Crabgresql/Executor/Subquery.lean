import Crabgresql.Executor.Limits
import Crabgresql.Executor.Agreement

/-!
# Subqueries in expressions

A subquery that stands in an expression is run once, before the rows of the query
around it, and replaced by its value: `IN` by a list of constants, a comparison with
`ANY` or `ALL` by a chain of comparisons, one for every row of the result.
-/

namespace Crabgresql.Executor

open Pgtypes Sql List

variable {vs : List Datum}

section resolve

variable (run : QueryExpr → Result Relation)

def runRelation (q : QueryExpr) : Result Relation :=
  if q.locking.isSome then
    .error (.value (.unsupported "FOR UPDATE/SHARE is not allowed inside a subquery"))
  else run q

def runScalar (q : QueryExpr) : Result (Datum × ColumnType) := do
  let rel ← runRelation run q
  match rel.scope, rel.rows with
  | [c], [] => pure (.null, c.ty)
  | [c], [row] => do
    let value ← cell row 0
    pure (value, c.ty)
  | [_], _ => .error .cardinalityViolation
  | _, _ => .error .subqueryColumns

def runSingleColumn (q : QueryExpr) : Result (ColumnType × List Datum) := do
  let rel ← runRelation run q
  match rel.scope with
  | [c] => do
    let col ← rel.rows.mapM (cell · 0)
    pure (c.ty, col)
  | _ => .error .subqueryColumns

def comparisons (lhs : Expr) (op : BinaryOp) (all : Bool) (ty : ColumnType) :
    Expr → List Datum → Expr :=
  foldl fun acc v =>
    .binary (if all then .and else .or) acc (.binary op lhs (.const v ty))

def lowerQuantified (lhs : Expr) (op : BinaryOp) (all : Bool) (ty : ColumnType) : List Datum → Expr
  | [] => .const (.bool all) .bool
  | v :: vs => comparisons lhs op all ty (.binary op lhs (.const v ty)) vs

mutual

def resolveExpr : Expr → Result Expr
  | .unary op e => do
    let e ← resolveExpr e
    pure (.unary op e)
  | .binary op l r => do
    let l ← resolveExpr l
    let r ← resolveExpr r
    pure (.binary op l r)
  | .func fc => do
    let fc ← resolveCall fc
    pure (.func fc)
  | .isNull e negated => do
    let e ← resolveExpr e
    pure (.isNull e negated)
  | .inList e list negated => do
    let e ← resolveExpr e
    let list ← resolveExprs list
    pure (.inList e list negated)
  | .between e low high negated => do
    let e ← resolveExpr e
    let low ← resolveExpr low
    let high ← resolveExpr high
    pure (.between e low high negated)
  | .like e pattern negated caseInsensitive => do
    let e ← resolveExpr e
    let pattern ← resolveExpr pattern
    pure (.like e pattern negated caseInsensitive)
  | .case operand whens elseResult => do
    let operand ← resolveExpr? operand
    let whens ← resolveWhens whens
    let elseResult ← resolveExpr? elseResult
    pure (.case operand whens elseResult)
  | .cast e ty => do
    let e ← resolveExpr e
    pure (.cast e ty)
  | .scalarSubquery q => do
    let (value, ty) ← runScalar run q
    pure (.const value ty)
  | .exists q => do
    let rel ← runRelation run q
    pure (.const (.bool !rel.rows.isEmpty) .bool)
  | .inSubquery e q negated => do
    let (ty, values) ← runSingleColumn run q
    let e ← resolveExpr e
    pure (.inList e (values.map (.const · ty)) negated)
  | .quantified e op all q => do
    let (ty, values) ← runSingleColumn run q
    let lhs ← resolveExpr e
    pure (lowerQuantified lhs op all ty values)
  | e => .ok e

def resolveCall : FuncCall → Result FuncCall
  | ⟨name, distinct, args⟩ => do
    let args ← resolveArgs args
    pure ⟨name, distinct, args⟩

def resolveArgs : FuncArgs → Result FuncArgs
  | .star => .ok .star
  | .exprs es => do
    let es ← resolveExprs es
    pure (.exprs es)

def resolveExprs : List Expr → Result (List Expr)
  | [] => .ok []
  | e :: es => do
    let e ← resolveExpr e
    let es ← resolveExprs es
    pure (e :: es)

def resolveExpr? : Option Expr → Result (Option Expr)
  | none => .ok none
  | some e => do
    let e ← resolveExpr e
    pure (some e)

def resolveWhens : List (Expr × Expr) → Result (List (Expr × Expr))
  | [] => .ok []
  | (cond, result) :: whens => do
    let cond ← resolveExpr cond
    let result ← resolveExpr result
    let whens ← resolveWhens whens
    pure ((cond, result) :: whens)

end

end resolve

/-! ## Three-valued folds -/

def any3 (l : List (Option Bool)) : Option Bool :=
  if some true ∈ l then some true else if none ∈ l then none else some false

def all3 (l : List (Option Bool)) : Option Bool :=
  if some false ∈ l then some false else if none ∈ l then none else some true

theorem foldl_or3 (l : List (Option Bool)) (a : Option Bool) : l.foldl or3 a = any3 (a :: l) := by
  induction l generalizing a with
  | nil => cases a using Option.rec with
    | none => rfl
    | some b => cases b <;> rfl
  | cons b l ih =>
    rw [foldl_cons, ih]
    rcases a with _ | _ | _ <;> rcases b with _ | _ | _ <;> simp [any3, or3]

theorem foldl_and3 (l : List (Option Bool)) (a : Option Bool) : l.foldl and3 a = all3 (a :: l) := by
  induction l generalizing a with
  | nil => cases a using Option.rec with
    | none => rfl
    | some b => cases b <;> rfl
  | cons b l ih =>
    rw [foldl_cons, ih]
    rcases a with _ | _ | _ <;> rcases b with _ | _ | _ <;> simp [all3, and3]

/-! ## Comparisons with every row -/

section quantified

variable {B : Builtins} {scope : Scope} {row : List Datum} {op : BinaryOp} {all : Bool}
  {x : Datum} {lhs : Expr} {ty : ColumnType}

/-- The value of a comparison of comparable values. -/
def compared (B : Builtins) (op : BinaryOp) (x v : Datum) : Option Bool :=
  match B.compare x v with
  | .ok o => o.map (cmpHolds op)
  | .error _ => none

def isComparison (op : BinaryOp) : Bool :=
  op == .eq || op == .ne || op == .lt || op == .le || op == .gt || op == .ge

/-- The value the evaluator returns with a frame for every level. -/
def Evaluates (B : Builtins) (scope : Scope) (row : List Datum) (e : Expr) (v : Datum) : Prop :=
  ∀ n, e.depth ≤ n → evalWithin B scope row n e = .ok v

theorem evalWithin_eq {e : Expr} {m n : ℕ} (hm : e.depth ≤ m) (h : m ≤ n) :
    evalWithin B scope row n e = evalWithin B scope row m e := by
  obtain ⟨err, herr, rfl⟩ | ⟨heq, -⟩ : Tracks _ _ (evalWithin B scope row m e)
      (evalWithin B scope row n e) := evalWithin_mono h e
  · exact absurd herr (evalWithin_inLimit hm).ne
  · exact heq

theorem evaluates_of_eval (hdepth : lhs.depth ≤ maxEvalDepth + 1)
    (h : eval B lhs scope row = .ok x) : Evaluates B scope row lhs x := by
  intro n hn
  rcases le_total n (maxEvalDepth + 1) with hle | hle
  · exact (evalWithin_eq hn hle).symm.trans h
  · exact (evalWithin_eq hdepth hle).trans h

theorem evaluates_comparison (hop : isComparison op) (hx : Evaluates B scope row lhs x)
    (ty : ColumnType) {v : Datum} (hv : ∃ o, B.compare x v = .ok o) :
    Evaluates B scope row (.binary op lhs (.const v ty)) (truth (compared B op x v)) := by
  intro n hn
  obtain _ | _ | n := n
  · simp [Expr.depth] at hn
  · simp [Expr.depth] at hn
  · obtain ⟨o, ho⟩ := hv
    have hlhs := hx (n + 1) (by simp [Expr.depth] at hn; omega)
    have hright : evalWithin B scope row (n + 1) (.const v ty) = .ok v := rfl
    have hcmp : applyBinary B op x v = .ok (truth (compared B op x v)) := by
      rw [compared, ho]
      cases op <;> first
        | simp only [applyBinary, ho]; rfl
        | cases hop
    rw [evalWithin, evalNode, hlhs, hright]
    change lift ((applyBinary B op x v).mapError _) = _
    rw [hcmp]
    rfl

theorem evaluates_comparisons (hop : isComparison op) (hx : Evaluates B scope row lhs x)
    (hvs : ∀ v ∈ vs, ∃ o, B.compare x v = .ok o) {acc : Expr} {a : Option Bool}
    (hacc : Evaluates B scope row acc (truth a)) :
    Evaluates B scope row (comparisons lhs op all ty acc vs)
      (truth ((vs.map (compared B op x)).foldl (if all then and3 else or3) a)) := by
  induction vs generalizing acc a with
  | nil => exact hacc
  | cons v vs ih =>
    refine ih (fun v hv => hvs v (mem_cons_of_mem _ hv)) fun n hn => ?_
    have hcmp := evaluates_comparison hop hx ty (hvs v mem_cons_self)
    obtain _ | n := n
    · simp [Expr.depth] at hn
    · have hl := hacc n (by simp [Expr.depth] at hn; omega)
      have hr := hcmp n (by simp only [Expr.depth] at hn ⊢; omega)
      rw [evalWithin, evalNode, hl, hr]
      have hbool : ∀ b : Option Bool, asBool (truth b) = .ok b := by
        rintro (_ | _) <;> rfl
      cases all <;> simp [bind, Except.bind, applyBinary, logical, hbool] <;> rfl

theorem depth_comparisons (vs : List Datum) {acc : Expr} (h : lhs.depth < acc.depth) :
    (comparisons lhs op all ty acc vs).depth ≤ acc.depth + vs.length := by
  induction vs generalizing acc with
  | nil => exact le_rfl
  | cons v vs ih =>
    have := lhs.depth_pos
    refine (ih ?_).trans ?_
    · simp only [Expr.depth]
      omega
    · simp only [Expr.depth, length_cons]
      omega

theorem leftDepth_comparisons (vs : List Datum) (acc : Expr) :
    leftDepth (comparisons lhs op all ty acc vs) = leftDepth acc + vs.length := by
  induction vs generalizing acc with
  | nil => rfl
  | cons v vs ih =>
    refine (ih _).trans ?_
    rw [leftDepth, length_cons]
    omega

/-- The lowered comparison has the value of SQL, if its tree is within the evaluator's limit. -/
theorem eval_lowerQuantified (hop : isComparison op) (hx : eval B lhs scope row = .ok x)
    (hvs : ∀ v ∈ vs, ∃ o, B.compare x v = .ok o) (hsize : lhs.depth + vs.length ≤ maxEvalDepth + 1) :
    eval B (lowerQuantified lhs op all ty vs) scope row =
      .ok (truth (if all then all3 (vs.map (compared B op x))
        else any3 (vs.map (compared B op x)))) := by
  cases vs with
  | nil => cases all <;> rfl
  | cons v vs =>
    have hlhs := evaluates_of_eval (by omega) hx
    have hdepth : (Expr.binary op lhs (.const v ty)).depth = lhs.depth + 1 := by
      have := lhs.depth_pos
      simp only [Expr.depth]
      omega
    have hle : (comparisons lhs op all ty (.binary op lhs (.const v ty)) vs).depth ≤
        maxEvalDepth + 1 := by
      refine (depth_comparisons vs (by omega)).trans ?_
      rw [hdepth]
      simp only [length_cons] at hsize
      omega
    refine (evaluates_comparisons hop hlhs (fun v hv => hvs v (mem_cons_of_mem _ hv))
      (evaluates_comparison hop hlhs ty (hvs v mem_cons_self)) _ hle).trans ?_
    cases all
    · simp [foldl_or3]
    · simp [foldl_and3]

end quantified

/-! ## Subqueries of one column -/

section column

variable {B : Builtins} {run : QueryExpr → Result Relation} {scope : Scope} {row : List Datum}
  {e lhs : Expr} {q : QueryExpr} {c : ColumnBinding} {x : Datum}

def columnOf (c : ColumnBinding) (vs : List Datum) : Relation := ⟨[c], vs.map fun v => [v]⟩

theorem runSingleColumn_eq (h : runRelation run q = .ok (columnOf c vs)) :
    runSingleColumn run q = .ok (c.ty, vs) := by
  have hcol : (vs.map fun v => [v]).mapM (cell · 0) = .ok vs := by
    clear h
    induction vs with
    | nil => rfl
    | cons v vs ih =>
      rw [map_cons, mapM_cons, ih]
      rfl
  simp only [runSingleColumn, h, columnOf, bind, Except.bind, hcol]
  rfl

def someQuery : QueryExpr := ⟨none, .query (.values []), [], none, none, none⟩

/-- True if a value equals `x`, else unknown if there is one and `x` or one of them is NULL, else
false. -/
def member3 (B : Builtins) (x : Datum) (vs : List Datum) : Option Bool :=
  if vs.any fun v => compared B .eq x v == some true then some true
  else if !vs.isEmpty && (isNull x || vs.any isNull) then none
  else some false

theorem compare_eq_none {v : Datum} (h : B.compare x v = .ok none) :
    (isNull x || isNull v) = true := by
  by_contra hnull
  unfold Builtins.compare at h
  rw [if_neg hnull] at h
  split at h <;> try simp at h
  split_ifs at h <;> split at h <;> simp at h

theorem evalInList_eq (hx : isNull x = false) (hvs : ∀ v ∈ vs, ∃ o, B.compare x v = .ok o)
    (negated sawNull : Bool) : evalInList B x negated (vs.map .ok) sawNull =
      .ok (truth ((if vs.any fun v => compared B .eq x v == some true then some true
        else if sawNull || vs.any isNull then none else some false).map (· != negated))) := by
  induction vs generalizing sawNull with
  | nil => cases sawNull <;> cases negated <;> rfl
  | cons v vs ih =>
    obtain ⟨o, ho⟩ := hvs v mem_cons_self
    have hrest := ih fun v hv => hvs v (mem_cons_of_mem _ hv)
    have hcmp : compared B .eq x v = o.map (cmpHolds .eq) := by rw [compared, ho]
    have hitem : lift ((B.compare x v).mapError .type) = .ok o := by
      rw [ho]
      rfl
    simp only [map_cons, evalInList, bind, Except.bind, hitem, any_cons, hcmp]
    rcases o with _ | o
    · have hv : isNull v = true := by simpa [hx] using compare_eq_none ho
      simp [hrest, hv]
    · have hv : isNull v = false := by
        by_contra hv
        simp [Builtins.compare, Bool.eq_true_of_not_eq_false hv] at ho
      cases o with
      | eq => simp [cmpHolds, truth]
      | lt | gt => simp [hrest, hv, cmpHolds]

end column

end Crabgresql.Executor
