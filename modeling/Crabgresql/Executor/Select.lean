import Crabgresql.Executor.Aggregate

/-!
# The SELECT pipeline

A SELECT filters the rows of its FROM clause and folds what is left into groups, or
sorts, cuts and projects it. A wildcard is replaced by references to the columns it
stands for, and these are looked up again, by name, for every row.
-/

namespace Crabgresql.Executor

open Pgtypes Sql List

variable (B : Builtins)

/-! ## Rows -/

def rowMatches (filter : Option Expr) (scope : Scope) (row : List Datum) : Result Bool :=
  match filter with
  | none => .ok true
  | some f => do
    match ← eval B f scope row with
    | .bool b => pure b
    | .null => pure false
    | _ => .error (.value (.typeMismatch "argument of WHERE must be type boolean"))

def keepRows (filter : Option Expr) (scope : Scope) : List (List Datum) → Result (List (List Datum))
  | [] => .ok []
  | row :: rows => do
    let keep ← rowMatches B filter scope row
    let kept ← keepRows filter scope rows
    pure (if keep then row :: kept else kept)

def projectRows (cols : List OutColumn) (scope : Scope) (rows : List (List Datum)) :
    Result (List (List Datum)) :=
  rows.mapM fun row => cols.mapM fun c => eval B c.expr scope row

def sortRows {α : Type} (orderBy : List OrderItem) (keyed : List (List Datum × α)) : List α :=
  (if orderBy.isEmpty then keyed
    else keyed.mergeSort fun a b => orderCmp B a.1 b.1 orderBy != .gt).map Prod.snd

def sortKey (scope : Scope) (cols : List OutColumn) (row : List Datum) :
    SelectOrderKey → Result Datum
  | .output i =>
    match cols[i]? with
    | some c => eval B c.expr scope row
    | none => .error (.value .outOfBounds)
  | .sourceExpr e => eval B e scope row

/-- The key of an output row; those of a DISTINCT query are all output columns. -/
def outputKey (out : List Datum) : SelectOrderKey → Result Datum
  | .output i => cell out i
  | .sourceExpr _ => .error (.value .outOfBounds)

def keyedBy {α : Type} (key : α → SelectOrderKey → Result Datum) (orderKeys : List SelectOrderKey)
    (rows : List α) : Result (List (List Datum × α)) :=
  rows.mapM fun row => do
    let keys ← orderKeys.mapM (key row)
    pure (keys, row)

def projectRowsOrdered (s : SelectStmt) (scope : Scope) (cols : List OutColumn)
    (kept : List (List Datum)) : Result (List (List Datum)) := do
  let orderKeys ← s.orderBy.mapM (resolveSelectOrderKey B scope cols s.distinct)
  if s.distinct then do
    let projected ← projectRows B cols scope kept
    let keyed ← keyedBy outputKey orderKeys projected
    pure (arrange B s keyed)
  else do
    let keyed ← keyedBy (sortKey B scope cols) orderKeys kept
    projectRows B cols scope (applyOffsetLimit (sortRows B s.orderBy keyed) s.offset s.limit)

/-! ## Queries -/

def isAggregateQuery (s : SelectStmt) : Bool :=
  !s.groupBy.isEmpty || s.having_.isSome ||
    (s.projection.any fun
      | .expr e _ => containsAggregate e
      | _ => false) ||
    s.orderBy.any fun o => containsAggregate o.expr

def outScope (cols : List OutColumn) : Scope := cols.map fun c => ⟨none, c.name, c.ty⟩

def outputRows (s : SelectStmt) (scope : Scope) (cols : List OutColumn)
    (kept : List (List Datum)) : Result (List (List Datum)) :=
  if isAggregateQuery s then aggregateRows B s scope kept
  else projectRowsOrdered B s scope cols kept

/-- A SELECT over the rows of its FROM clause. -/
def selectOver (s : SelectStmt) (rel : Relation) : Result Relation := do
  let kept ← keepRows B s.filter rel.scope rel.rows
  let cols ← resolveProjection B s.projection rel.scope
  let rows ← outputRows B s rel.scope cols kept
  pure ⟨outScope cols, rows⟩

def requalifyDerived (rel : Relation) (alias_ : String) (columns : Option (List String)) :
    Result Relation :=
  let requalify (names : List String) : Relation :=
    { rel with scope := (rel.scope.zip names).map fun p => ⟨some alias_, p.2, p.1.ty⟩ }
  match columns with
  | none => .ok (requalify (rel.scope.map ColumnBinding.name))
  | some names =>
    if names.length = rel.scope.length then .ok (requalify names)
    else .error (.derivedColumnAliasCount rel.scope.length names.length)

/-! ## Wildcards -/

/-- A SELECT without other clauses. -/
def bareSelect (items : List SelectItem) : SelectStmt :=
  ⟨items, [], none, false, [], none, [], none, none, none⟩

variable {B} {rel : Relation} {scope : Scope} {row : List Datum} {c : ColumnBinding} {i : ℕ}

/-- No two columns have the same qualifier and name, and a column without a qualifier does not
share its name. -/
structure Scope.Distinct (scope : Scope) : Prop where
  names : (scope.map fun c => (c.qualifier, c.name)).Nodup
  merged : ∀ c ∈ scope, ∀ d ∈ scope, c.qualifier = none → d.name = c.name → d = c

theorem resolve_eq_ok {q : Option String} {name : String} (hc : scope[i]? = some c)
    (hans : c.answers q name = true)
    (hone : ∀ j d, scope[j]? = some d → d.answers q name = true → j = i) :
    scope.resolve q name = .ok i := by
  have hidx : scope.findIdxs (·.answers q name) = [i] := by
    refine perm_singleton.mp ((perm_ext_iff_of_nodup nodup_findIdxs (nodup_singleton i)).mpr ?_)
    intro j
    rw [mem_findIdxs_iff_exists_getElem_pos, mem_singleton]
    constructor
    · rintro ⟨hj, hans⟩
      exact hone j _ (getElem?_eq_getElem hj) hans
    · rintro rfl
      obtain ⟨hj, rfl⟩ := List.getElem?_eq_some_iff.mp hc
      exact ⟨hj, hans⟩
  have hentry : (q.filter fun q => scope.all fun c => c.qualifier != some q) = none := by
    cases q with
    | none => rfl
    | some q =>
      simp only [ColumnBinding.answers, Option.all_some, Bool.and_eq_true, beq_iff_eq] at hans
      simp only [Option.filter_eq_none_iff, Option.some.injEq, forall_eq', Bool.not_eq_true,
        all_eq_false, bne_iff_ne, ne_eq, not_not]
      exact ⟨c, mem_of_getElem? hc, hans.1⟩
  simp [Scope.resolve, hentry, hidx]

theorem answers_self (c : ColumnBinding) : c.answers c.qualifier c.name = true := by
  cases h : c.qualifier <;> simp [ColumnBinding.answers, h]

theorem Scope.Distinct.resolve (h : scope.Distinct) (hc : scope[i]? = some c) :
    scope.resolve c.qualifier c.name = .ok i := by
  refine resolve_eq_ok hc (answers_self c) fun j d hd hans => ?_
  simp only [ColumnBinding.answers, Bool.and_eq_true, beq_iff_eq] at hans
  have hdc : (d.qualifier, d.name) = (c.qualifier, c.name) := by
    cases hq : c.qualifier with
    | none => rw [h.merged c (mem_of_getElem? hc) d (mem_of_getElem? hd) hq hans.2, hq]
    | some q => simpa [hq] using hans
  have hlt : j < (scope.map fun c => (c.qualifier, c.name)).length := by
    simpa using (List.getElem?_eq_some_iff.mp hd).1
  refine (getElem?_inj hlt h.names).mp ?_
  rw [getElem?_map, getElem?_map, hd, hc, Option.map_some, Option.map_some, hdc]

/-- References to columns that resolve to themselves give their cells. -/
theorem mapM_columns (hlen : row.length = scope.length) {p : ColumnBinding → Bool}
    (h : ∀ i c, scope[i]? = some c → p c = true → scope.resolve c.qualifier c.name = .ok i) :
    ((scope.filter p).map ColumnBinding.out).mapM (fun c => eval B c.expr scope row) =
      .ok (((scope.zip row).filter fun x => p x.1).map Prod.snd) := by
  have hcols : scope.filter p = ((scope.zip row).filter fun x => p x.1).map Prod.fst := by
    have hfst : (scope.zip row).map Prod.fst = scope := map_fst_zip hlen.ge
    nth_rewrite 1 [← hfst]
    rw [filter_map]
    rfl
  rw [hcols, map_map, mapM_eq_ok, forall₂_map_left_iff, forall₂_map_right_iff, forall₂_same]
  rintro ⟨c, v⟩ hmem
  obtain ⟨hzip, hp⟩ := mem_filter.mp hmem
  obtain ⟨i, hi⟩ := mem_iff_getElem?.mp hzip
  obtain ⟨hc, hv⟩ := getElem?_zip_eq_some.mp hi
  change columnValue scope row c.qualifier c.name = .ok v
  refine bind_eq_ok.mpr ⟨i, by rw [h i c hc hp]; rfl, ?_⟩
  simp only [cell, hv]

theorem keepRows_none (rows : List (List Datum)) : keepRows B none scope rows = .ok rows := by
  induction rows with
  | nil => rfl
  | cons row rows ih => exact bind_eq_ok.mpr ⟨true, rfl, bind_eq_ok.mpr ⟨rows, ih, rfl⟩⟩

theorem keyedBy_nil {α : Type} {key : α → SelectOrderKey → Result Datum} (rows : List α) :
    keyedBy key [] rows = .ok (rows.map fun row => ([], row)) := by
  rw [keyedBy, mapM_eq_ok, forall₂_map_right_iff, forall₂_same]
  exact fun _ _ => rfl

theorem selectOver_bare {item : SelectItem} {p : ColumnBinding → Bool}
    (hitem : projectItem B rel.scope item = .ok ((rel.scope.filter p).map ColumnBinding.out))
    (hplain : isAggregateQuery (bareSelect [item]) = false)
    (haligned : ∀ row ∈ rel.rows, row.length = rel.scope.length)
    (h : ∀ i c, rel.scope[i]? = some c → p c = true →
      rel.scope.resolve c.qualifier c.name = .ok i) :
    selectOver B (bareSelect [item]) rel =
      .ok ⟨(rel.scope.filter p).map fun c => { c with qualifier := none },
        rel.rows.map fun row => ((rel.scope.zip row).filter fun x => p x.1).map Prod.snd⟩ := by
  have hcols : resolveProjection B (bareSelect [item]).projection rel.scope =
      .ok ((rel.scope.filter p).map ColumnBinding.out) :=
    bind_eq_ok.mpr ⟨[_], mapM_eq_ok.mpr (.cons hitem .nil), by simp [pure, Except.pure]⟩
  have hrows : applyOffsetLimit (sortRows B (bareSelect [item]).orderBy
      (rel.rows.map fun row => ([], row))) (bareSelect [item]).offset (bareSelect [item]).limit =
      rel.rows := by
    simp [sortRows, bareSelect, applyOffsetLimit, Function.comp_def]
  have hout : outputRows B (bareSelect [item]) rel.scope
      ((rel.scope.filter p).map ColumnBinding.out) rel.rows = .ok (rel.rows.map fun row =>
        ((rel.scope.zip row).filter fun x => p x.1).map Prod.snd) := by
    rw [outputRows, hplain]
    refine bind_eq_ok.mpr ⟨[], rfl, bind_eq_ok.mpr ⟨_, keyedBy_nil _, ?_⟩⟩
    rw [hrows, projectRows, mapM_eq_ok, forall₂_map_right_iff, forall₂_same]
    exact fun row hrow => mapM_columns (haligned row hrow) h
  refine bind_eq_ok.mpr ⟨_, keepRows_none _, bind_eq_ok.mpr ⟨_, hcols, ?_⟩⟩
  refine bind_eq_ok.mpr ⟨_, hout, ?_⟩
  simp only [outScope, map_map, Function.comp_def, ColumnBinding.out]
  rfl

/-- `SELECT 1 AS a, 2 AS b` under the alias `d`. -/
def derivedPair (B : Builtins) (a b : String) : Result Relation := do
  let rel ← selectOver B (bareSelect
    [.expr (.intLiteral "1") (some a), .expr (.intLiteral "2") (some b)]) ⟨[], [[]]⟩
  requalifyDerived rel "d" none

def pairRelation (a b : String) : Relation :=
  ⟨[⟨some "d", a, .int4⟩, ⟨some "d", b, .int4⟩], [[.int4 1, .int4 2]]⟩

end Crabgresql.Executor
