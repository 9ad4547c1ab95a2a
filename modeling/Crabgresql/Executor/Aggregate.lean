import Crabgresql.Lib.Groups
import Crabgresql.Executor.Grouping

/-!
# Aggregate queries

The filtered rows of an aggregate query are folded into groups, one for every tuple of
key values. A group has an accumulator for every aggregate of the query; at the end it
yields at most one output row. A query without GROUP BY has one group in any case.
-/

namespace Crabgresql.Executor

open Pgtypes Sql List Except

variable (B : Builtins)

/-! ## Accumulators -/

inductive AccState
  | count (n : ℕ)
  | sumI (acc : Option ℤ)
  | sumF (acc : Float8) (any : Bool)
  | sumN (acc : Option Datum)
  | minMax (best : Option Datum)
  | avg (sum : Float8) (n : ℕ)
  | avgN (sum : Option Datum) (n : ℕ)

structure Acc where
  state : AccState
  /-- The values folded so far, of a DISTINCT aggregate. -/
  seen : List Datum

def AccState.new (spec : AggSpec) : AccState :=
  match spec.func with
  | .count => .count 0
  | .sum =>
    match spec.argType with
    | some .float8 => .sumF ⟨0⟩ false
    | some (.numeric _) => .sumN none
    | _ => .sumI none
  | .avg => if spec.argType = some .float8 then .avg ⟨0⟩ 0 else .avgN none 0
  | .min | .max => .minMax none

def Acc.new (spec : AggSpec) : Acc := ⟨.new spec, []⟩

def asFloat : Datum → Option Float8
  | .int4 n => some (B.floatOfInt n.toInt)
  | .int8 n => some (B.floatOfInt n.toInt)
  | .float8 f => some f
  | _ => none

def badArgument (name : String) (v : Datum) : ExecError :=
  .value (undefinedForArg name ((columnType v).getD .text))

def addTo (sum : Option Datum) (v : Datum) : Result (Option Datum) :=
  match sum with
  | none => .ok (some v)
  | some cur => do
    let next ← lift ((B.arith .add cur v).mapError .type)
    pure (some next)

/-- A value that is not NULL and, if the aggregate is DISTINCT, new. -/
def addValue (func : AggFunc) (v : Datum) : AccState → Result AccState
  | .count n => .ok (.count (n + 1))
  | .sumI acc =>
    match asI64 v with
    | none => .error (badArgument "sum" v)
    | some add =>
      let next := acc.getD 0 + add
      if -2 ^ 63 ≤ next ∧ next < 2 ^ 63 then .ok (.sumI (some next))
      else .error (.value (.type .overflow))
  | .sumF acc _ =>
    match asFloat B v with
    | none => .error (badArgument "sum" v)
    | some add => .ok (.sumF (B.addFloat acc add) true)
  | .sumN acc => do
    let next ← addTo B acc v
    pure (.sumN next)
  | .avgN sum n => do
    let vn ← lift (match asNumeric v with
      | some d => .ok (.numeric d)
      | none => (B.cast v (.numeric none)).mapError .type)
    let next ← addTo B sum vn
    pure (.avgN next (n + 1))
  | .avg sum n =>
    match asFloat B v with
    | none => .error (badArgument "avg" v)
    | some add => .ok (.avg (B.addFloat sum add) (n + 1))
  | .minMax none => .ok (.minMax (some v))
  | .minMax (some cur) => do
    let ord ← lift ((B.compare v cur).mapError .type)
    let take := (func = .min ∧ ord = some .lt) ∨ (func = .max ∧ ord = some .gt)
    pure (.minMax (some (if take then v else cur)))

def Acc.foldRow (spec : AggSpec) (scope : Scope) (acc : Acc) (row : List Datum) : Result Acc :=
  match spec.arg, acc.state with
  | none, .count n => .ok { acc with state := .count (n + 1) }
  | none, _ => .error (.value .outOfBounds)
  | some arg, state => do
    let v ← eval B arg scope row
    if isNull v || (spec.distinct && acc.seen.any (same v)) then pure acc
    else
      let state ← addValue B spec.func v state
      pure ⟨state, if spec.distinct then v :: acc.seen else acc.seen⟩

def AccState.finish : AccState → Result Datum
  | .count n => .ok (.int8 (Int64.ofNat n))
  | .sumI acc => .ok ((acc.map fun n => .int8 (Int64.ofInt n)).getD .null)
  | .sumF acc any => .ok (if any then .float8 acc else .null)
  | .sumN acc => .ok (acc.getD .null)
  | .minMax best => .ok (best.getD .null)
  | .avg sum n => .ok (if n = 0 then .null else .float8 (B.divFloat sum (B.floatOfInt n)))
  | .avgN (some s) n =>
    if 0 < n then lift ((B.arith .div s (.int8 (Int64.ofNat n))).mapError .type) else .ok .null
  | .avgN none _ => .ok .null

/-! ## Groups -/

def keyOf (scope : Scope) (groupBy : List Expr) (row : List Datum) : Result (List Datum) :=
  groupBy.mapM fun g => eval B g scope row

def foldAccs (specs : List AggSpec) (scope : Scope) (accs : List Acc) (row : List Datum) :
    Result (List Acc) :=
  (specs.zip accs).mapM fun p => p.2.foldRow B p.1 scope row

/-- The groups in the order of their first rows. -/
def groupRows (scope : Scope) (groupBy : List Expr) (specs : List AggSpec)
    (rows : List (List Datum)) : Result (List (List Datum × List Acc)) := do
  let groups ← Groups.group (List.map canon) (keyOf B scope groupBy) (specs.map Acc.new)
    (foldAccs B specs scope) rows
  pure (if groupBy.isEmpty && groups.isEmpty then [([], specs.map Acc.new)] else groups)

/-! ## Projection and order -/

structure OutColumn where
  name : String
  ty : ColumnType
  expr : Expr

def derivedName : Expr → String
  | .column _ name => name
  | .func fc => fc.name
  | _ => "?column?"

def ColumnBinding.out (c : ColumnBinding) : OutColumn := ⟨c.name, c.ty, .column c.qualifier c.name⟩

def projectItem (scope : Scope) : SelectItem → Result (List OutColumn)
  | .wildcard =>
    if scope.isEmpty then
      .error (.value (.unsupported "SELECT * with no FROM clause is not supported"))
    else .ok (scope.map ColumnBinding.out)
  | .qualifiedWildcard q =>
    match scope.filter (·.qualifier == some q) with
    | [] => .error (.value (.missingFromEntry q))
    | cols => .ok (cols.map ColumnBinding.out)
  | .expr e alias_ => do
    let ty ← lift (inferType B e scope)
    pure [⟨alias_.getD (derivedName e), ty, e⟩]

def resolveProjection (items : List SelectItem) (scope : Scope) : Result (List OutColumn) := do
  let cols ← items.mapM (projectItem B scope)
  pure cols.flatten

inductive SelectOrderKey
  | output (i : ℕ)
  | sourceExpr (e : Expr)

def orderOutputExprsEquivalent (scope : Scope) (a b : Expr) : Bool :=
  sameExpr B a b ||
    match a, b with
    | .column ta na, .column tb nb =>
      match scope.resolve ta na, scope.resolve tb nb with
      | .ok i, .ok j => i == j
      | _, _ => false
    | _, _ => false

/-- The output column of that name; two of them have to be equivalent. -/
def outputLabelIndex (scope : Scope) (cols : List OutColumn) (name : String) : Result (Option ℕ) :=
  match (cols.zipIdx.filter fun c => c.1.name == name) with
  | [] => .ok none
  | (c, i) :: more =>
    if more.all fun d => orderOutputExprsEquivalent B scope c.expr d.1.expr then .ok (some i)
    else .error (.ambiguousOrderBy name)

def resolveSelectOrderKey (scope : Scope) (cols : List OutColumn) (requireOutput : Bool)
    (item : OrderItem) : Result SelectOrderKey := do
  let label ←
    match item.expr with
    | .intLiteral s =>
      match intLiteral s with
      | .ok (.int4 pos) =>
        if pos.toInt ≤ 0 ∨ cols.length < pos.toInt then
          .error (.invalidColumnReference
            ("ORDER BY position " ++ toString pos.toInt ++ " is not in select list"))
        else .ok (some (pos.toInt.toNat - 1))
      | _ => .error (.malformed "non-integer constant in ORDER BY")
    | .column none name => outputLabelIndex B scope cols name
    | _ => .ok none
  match label with
  | some i => pure (.output i)
  | none =>
    if requireOutput then
      match cols.findIdx? fun c => orderOutputExprsEquivalent B scope c.expr item.expr with
      | some i => pure (.output i)
      | none => do
        match item.expr with
        | .column (some table) name => discard (lift (scope.resolve (some table) name))
        | _ => pure ()
        .error (.invalidColumnReference
          "for SELECT DISTINCT, ORDER BY expressions must appear in select list")
    else pure (.sourceExpr item.expr)

def orderCmp : List Datum → List Datum → List OrderItem → Ordering
  | x :: a, y :: b, item :: items =>
    let ord :=
      match isNull x, isNull y with
      | true, true => .eq
      | true, false => if item.asc then .gt else .lt
      | false, true => if item.asc then .lt else .gt
      | false, false =>
        let base := ((B.compare x y).toOption.join).getD .eq
        if item.asc then base else base.swap
    if ord = .eq then orderCmp a b items else ord
  | _, _, _ => .eq

def applyOffsetLimit {α : Type} (rows : List α) (offset limit : Option ℤ) : List α :=
  let rows := rows.drop (offset.getD 0).toNat
  match limit with
  | some n => rows.take n.toNat
  | none => rows

/-- Of rows with equal output the first. -/
def distinctRows : List (List Datum × List Datum) → List (List Datum) →
    List (List Datum × List Datum)
  | [], _ => []
  | p :: out, seen =>
    if seen.any (sameRow p.2) then distinctRows out seen
    else p :: distinctRows out (p.2 :: seen)

/-! ## The query -/

/-- What a group yields: its sort keys and its output row, unless HAVING drops it. -/
def finishGroup (s : SelectStmt) (scope : Scope) (specs : List AggSpec) (cols : List OutColumn)
    (orderKeys : List SelectOrderKey) (group : List Datum × List Acc) :
    Result (Option (List Datum × List Datum)) := do
  let results ← group.2.mapM fun acc => acc.state.finish B
  let evaluate := evalGrouped B ⟨s.groupBy, group.1, specs, results⟩ scope
  let keep ←
    match s.having_ with
    | none => pure true
    | some h => do
      match ← evaluate h with
      | .bool b => pure b
      | .null => pure false
      | _ => .error (.value (.typeMismatch "argument of HAVING must be type boolean"))
  if keep then do
    let projected ← cols.mapM fun c => evaluate c.expr
    let keys ← orderKeys.mapM fun
      | .output i => cell projected i
      | .sourceExpr e => evaluate e
    pure (some (keys, projected))
  else pure none

/-- The expressions of an aggregate query that are evaluated for each group. -/
def groupedExprs (s : SelectStmt) (cols : List OutColumn) (orderKeys : List SelectOrderKey) :
    List Expr :=
  cols.map OutColumn.expr ++ s.having_.toList ++ orderKeys.filterMap fun
    | .output _ => none
    | .sourceExpr e => some e

def planAggregate (s : SelectStmt) (scope : Scope) :
    Result (List OutColumn × List SelectOrderKey × List AggSpec) := do
  let cols ← resolveProjection B s.projection scope
  let orderKeys ← s.orderBy.mapM (resolveSelectOrderKey B scope cols s.distinct)
  forM s.groupBy fun g =>
    if containsAggregate g then
      .error (.grouping "aggregate functions are not allowed in GROUP BY")
    else .ok ()
  let specs ← (groupedExprs s cols orderKeys).foldlM (fun specs e => do
    let specs ← collectSpecs B scope e specs
    validateGrouped B s.groupBy e
    pure specs) []
  pure (cols, orderKeys, specs)

def arrange (s : SelectStmt) (out : List (List Datum × List Datum)) : List (List Datum) :=
  let out := if s.distinct then distinctRows out [] else out
  let out :=
    if s.orderBy.isEmpty then out
    else out.mergeSort fun a b => orderCmp B a.1 b.1 s.orderBy != .gt
  (applyOffsetLimit out s.offset s.limit).map Prod.snd

def aggregateRows (s : SelectStmt) (scope : Scope) (rows : List (List Datum)) :
    Result (List (List Datum)) := do
  let (cols, orderKeys, specs) ← planAggregate B s scope
  let groups ← groupRows B scope s.groupBy specs rows
  let out ← groups.mapM (finishGroup B s scope specs cols orderKeys)
  pure (arrange B s out.reduceOption)

/-! ## The groups partition the rows -/

variable {B} {scope : Scope} {groupBy : List Expr} {specs : List AggSpec}
  {rows : List (List Datum)}

abbrev groupMembers (B : Builtins) (scope : Scope) (groupBy : List Expr) (key : List Datum)
    (rows : List (List Datum)) : List (List Datum) :=
  Groups.members (List.map canon) (keyOf B scope groupBy) (key.map canon) rows

theorem forall₂_zip {α β γ : Type} {R : α → β → Prop} {S : α × β → γ → Prop} {as : List α}
    {cs : List γ} : Forall₂ (fun a c => ∃ b, R a b ∧ S (a, b) c) as cs ↔
      ∃ bs, Forall₂ R as bs ∧ Forall₂ S (as.zip bs) cs := by
  constructor
  · intro h
    induction h with
    | nil => exact ⟨[], .nil, .nil⟩
    | cons hb _ ih =>
      obtain ⟨b, hr, hs⟩ := hb
      obtain ⟨bs, hrs, hss⟩ := ih
      exact ⟨b :: bs, .cons hr hrs, .cons hs hss⟩
  · rintro ⟨bs, h, h'⟩
    induction h generalizing cs with
    | nil =>
      cases h'
      exact .nil
    | cons hr _ ih =>
      cases h' with
      | cons hs h' => exact .cons ⟨_, hr, hs⟩ (ih h')

theorem exists_mem_zip {α β : Type} {R : α → β → Prop} {as : List α} {bs : List β}
    (h : Forall₂ R as bs) {a : α} (ha : a ∈ as) : ∃ b, (a, b) ∈ as.zip bs ∧ R a b := by
  induction h with
  | nil => cases ha
  | cons hr _ ih =>
    rcases mem_cons.mp ha with rfl | ha
    · exact ⟨_, mem_cons_self, hr⟩
    · obtain ⟨b, hb, hr⟩ := ih ha
      exact ⟨b, mem_cons_of_mem _ hb, hr⟩

/-- The accumulators are folded side by side. -/
theorem foldlM_foldAccs {accs : List Acc} :
    rows.foldlM (foldAccs B specs scope) (specs.map Acc.new) = .ok accs ↔
      Forall₂ (fun spec acc => rows.foldlM (Acc.foldRow B spec scope) (.new spec) = .ok acc)
        specs accs := by
  induction rows using reverseRecOn generalizing accs with
  | nil =>
    simp only [foldlM_nil, pure, Except.pure, Except.ok.injEq, forall₂_eq_eq_eq.symm,
      forall₂_map_left_iff]
  | append_singleton rows row ih =>
    have hrow : ∀ {σ : Type} (f : σ → List Datum → Result σ) (s t : σ),
        (rows ++ [row]).foldlM f s = .ok t ↔ ∃ m, rows.foldlM f s = .ok m ∧ f m row = .ok t := by
      intro σ f s t
      rw [foldlM_append, bind_eq_ok]
      exact exists_congr fun m => and_congr_right fun _ => by rw [← bind_pure (f m row)]; rfl
    simp only [hrow, ih, foldAccs, mapM_eq_ok]
    exact forall₂_zip.symm

/-- What the groups of a query are: no two have one key, each row is in the group of its key, a
group has a row unless there is nothing to group by, and then there is one group; and each
accumulator is the fold of its aggregate over the rows of the group. -/
structure Grouped (B : Builtins) (scope : Scope) (groupBy : List Expr) (specs : List AggSpec)
    (rows : List (List Datum)) (groups : List (List Datum × List Acc)) : Prop where
  distinct : groups.Pairwise fun g h => sameRow g.1 h.1 = false
  keyed : ∀ row ∈ rows, ∃ key, keyOf B scope groupBy row = .ok key ∧
    ∃ g ∈ groups, sameRow g.1 key ∧ row ∈ groupMembers B scope groupBy g.1 rows
  inhabited : groupBy ≠ [] → ∀ g ∈ groups, groupMembers B scope groupBy g.1 rows ≠ []
  alone : groupBy = [] → groups.length = 1
  folded : ∀ g ∈ groups, Forall₂ (fun spec acc =>
    (groupMembers B scope groupBy g.1 rows).foldlM (Acc.foldRow B spec scope) (.new spec) =
      .ok acc) specs g.2
  total : (groups.map fun g => (groupMembers B scope groupBy g.1 rows).length).sum = rows.length

theorem grouped_of_isPartition {groups : List (List Datum × List Acc)}
    (h : Groups.IsPartition (List.map canon) (keyOf B scope groupBy) (specs.map Acc.new)
      (foldAccs B specs scope) rows groups)
    (halone : groupBy = [] → groups ≠ []) : Grouped B scope groupBy specs rows groups where
  distinct := by
    refine (pairwise_map.mp h.distinct).imp fun hne => ?_
    exact decide_eq_false hne
  keyed row hrow := by
    obtain ⟨key, hkey, g, hg, hsame⟩ := h.keyed row hrow
    refine ⟨key, hkey, g, hg, decide_eq_true hsame, mem_filter.mpr ⟨hrow, ?_⟩⟩
    simp [hkey, Except.toOption, hsame]
  inhabited _ g hg := by
    obtain ⟨row, hrow, hkey⟩ := h.inhabited g hg
    refine ne_nil_of_mem (mem_filter.mpr ⟨hrow, ?_⟩)
    simp [hkey, Except.toOption]
  alone hnil := by
    -- every key is empty
    have hkey : ∀ g ∈ groups, g.1.map canon = [] := by
      intro g hg
      obtain ⟨row, -, hkey⟩ := h.inhabited g hg
      rw [hnil] at hkey
      rw [← ok.inj hkey]
      rfl
    have hsub : (groups.map fun g => g.1.map canon) ⊆ [[]] := by
      intro k hk
      obtain ⟨g, hg, rfl⟩ := mem_map.mp hk
      simp [hkey g hg]
    have hle := (h.distinct.subperm hsub).length_le
    rw [length_map] at hle
    exact le_antisymm hle (length_pos_iff.mpr (halone hnil))
  folded g hg := foldlM_foldAccs.mp (h.folded g hg)
  total := h.sum_length

theorem groupRows_grouped {groups : List (List Datum × List Acc)}
    (h : groupRows B scope groupBy specs rows = .ok groups) :
    Grouped B scope groupBy specs rows groups := by
  obtain ⟨found, hfound, h⟩ := bind_eq_ok.mp h
  obtain rfl := ok.inj h
  have hpart := Groups.isPartition_group hfound
  split_ifs with hempty
  · rw [Bool.and_eq_true, List.isEmpty_iff, List.isEmpty_iff] at hempty
    obtain ⟨rfl, rfl⟩ := hempty
    obtain rfl : rows = [] := by
      refine eq_nil_iff_forall_not_mem.mpr fun row hrow => ?_
      obtain ⟨-, -, g, hg, -⟩ := hpart.keyed row hrow
      cases hg
    refine ⟨pairwise_singleton _ _, nofun, (absurd rfl ·), fun _ => rfl, ?_, rfl⟩
    intro g hg
    obtain rfl := mem_singleton.mp hg
    exact foldlM_foldAccs.mp rfl
  · refine grouped_of_isPartition hpart fun hnil hfound => hempty ?_
    rw [hnil, hfound]
    rfl

theorem foldlM_countStar {spec : AggSpec} (hfunc : spec.func = .count) (harg : spec.arg = none)
    (rows : List (List Datum)) :
    rows.foldlM (Acc.foldRow B spec scope) (.new spec) = .ok ⟨.count rows.length, []⟩ := by
  have hfold : ∀ n, rows.foldlM (Acc.foldRow B spec scope) ⟨.count n, []⟩ =
      .ok ⟨.count (n + rows.length), []⟩ := by
    induction rows with
    | nil => exact fun n => rfl
    | cons row rows ih =>
      intro n
      rw [foldlM_cons, Acc.foldRow.eq_def, harg, length_cons, Nat.add_comm _ 1,
        ← Nat.add_assoc]
      exact ih (n + 1)
  rw [Acc.new, AccState.new, hfunc]
  exact (hfold 0).trans (by rw [Nat.zero_add])

def selectCount : SelectStmt :=
  ⟨[.expr (.func ⟨"count", false, .star⟩) none], [], none, false, [], none, [], none, none, none⟩

end Crabgresql.Executor
