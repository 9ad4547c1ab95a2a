import Crabgresql.Executor.Trees

/-!
# Set operations

The leaves of a tree of UNION, INTERSECT and EXCEPT are queries whose rows are coerced to
the column types of the whole tree; each node combines two lists of rows. Rows are told
apart as equality of values tells them apart, so that NULL equals NULL.
-/

namespace Crabgresql.Executor

open Pgtypes Sql List

def maxSetopDepth : ℕ := 150

/-! ## Combining rows -/

/-- The rows that a hash set met for the first time, after those of `seen`. -/
def firstSeen : List (List Datum) → List (List Datum) → List (List Datum)
  | [], _ => []
  | row :: rows, seen =>
    if seen.any (sameRow row) then firstSeen rows seen
    else row :: firstSeen rows (row :: seen)

def dedupKeepOrder (rows : List (List Datum)) : List (List Datum) := firstSeen rows []

def counts (rows : List (List Datum)) (row : List Datum) : ℕ := rows.countP (sameRow row)

/-- Each distinct row of the left operand, in order, as many times as `mult` says. -/
def expand (lrows : List (List Datum)) (mult : List Datum → ℕ) : List (List Datum) :=
  (firstSeen lrows []).flatMap fun row => List.replicate (mult row) row

def intersect (lrows rrows : List (List Datum)) (all : Bool) : List (List Datum) :=
  expand lrows fun row =>
    if counts rrows row = 0 then 0
    else if all then min (counts lrows row) (counts rrows row) else 1

def except (lrows rrows : List (List Datum)) (all : Bool) : List (List Datum) :=
  expand lrows fun row =>
    if all then counts lrows row - counts rrows row
    else if counts rrows row = 0 then 1 else 0

def combineRows (op : SetOp) (all : Bool) (lrows rrows : List (List Datum)) : List (List Datum) :=
  match op with
  | .union => if all then lrows ++ rrows else dedupKeepOrder (lrows ++ rrows)
  | .intersect => intersect lrows rrows all
  | .except => except lrows rrows all

variable (B : Builtins)

def coerceRows (rel : Relation) (tys : List ColumnType) : Result (List (List Datum)) :=
  rel.rows.mapM fun row => (row.zip (rel.scope.zip tys)).mapM fun (cell, column, ty) =>
    if column.ty = ty ∨ isNull cell then .ok cell else lift ((B.cast cell ty).mapError .type)

/-- A leaf is run by `leaf`. -/
def foldSet (leaf : QueryBody → Result Relation) (tys : List ColumnType) (depth : ℕ) :
    SetExpr → Result (List (List Datum))
  | .query body =>
    if maxSetopDepth < depth then .error .stackDepthExceeded
    else do
      let rel ← leaf body
      coerceRows B rel tys
  | .setOp op all left right =>
    if maxSetopDepth < depth then .error .stackDepthExceeded
    else do
      let lrows ← foldSet leaf tys (depth + 1) left
      let rrows ← foldSet leaf tys (depth + 1) right
      pure (combineRows op all lrows rrows)

/-! ## Multiplicities -/

def multiplicity : SetOp → Bool → ℕ → ℕ → ℕ
  | .union, true, m, n => m + n
  | .union, false, m, n => min 1 (m + n)
  | .intersect, true, m, n => min m n
  | .intersect, false, m, n => min 1 (min m n)
  | .except, true, m, n => m - n
  | .except, false, m, n => if 0 < m ∧ n = 0 then 1 else 0

/-- How often a row occurs in a tree whose leaves have these rows. -/
def occurrences (leafRows : QueryBody → List (List Datum)) (row : List Datum) : SetExpr → ℕ
  | .query body => counts (leafRows body) row
  | .setOp op all left right =>
    multiplicity op all (occurrences leafRows row left) (occurrences leafRows row right)

def nodeDepth : SetExpr → ℕ
  | .query _ => 0
  | .setOp _ _ left right => max (nodeDepth left) (nodeDepth right) + 1

def leaves : SetExpr → List QueryBody
  | .query body => [body]
  | .setOp _ _ left right => leaves left ++ leaves right

variable {rows lrows rrows seen : List (List Datum)} {row : List Datum} {mult : List Datum → ℕ}

theorem sameRow_self (a : List Datum) : sameRow a a = true := decide_eq_true rfl

theorem sameRow_congr {a b : List Datum} (h : sameRow a b = true) : sameRow a = sameRow b :=
  funext fun c => by simp [sameRow, of_decide_eq_true h]

theorem counts_congr {a b : List Datum} (h : sameRow a b = true) :
    counts rows a = counts rows b := by
  rw [counts, counts, sameRow_congr h]

theorem counts_pos : 0 < counts rows row ↔ rows.any (sameRow row) = true := by
  rw [counts, countP_pos_iff, List.any_eq_true]

theorem counts_replicate (n : ℕ) (a : List Datum) :
    counts (List.replicate n a) row = if sameRow row a then n else 0 := by
  unfold counts
  rw [countP_replicate]

theorem counts_append : counts (lrows ++ rrows) row = counts lrows row + counts rrows row :=
  countP_append

/-- Of the rows equal to `row`, only the first is expanded, and none if one was seen before. -/
theorem counts_firstSeen (hmult : ∀ a b, sameRow a b = true → mult a = mult b) :
    counts ((firstSeen rows seen).flatMap fun a => List.replicate (mult a) a) row =
      if seen.any (sameRow row) then 0 else if rows.any (sameRow row) then mult row else 0 := by
  induction rows generalizing seen with
  | nil => simp [firstSeen, counts]
  | cons a rows ih =>
    rw [firstSeen]
    by_cases hseen : seen.any (sameRow a) = true <;> by_cases hrow : sameRow row a = true
    · simp [ih, hseen, sameRow_congr hrow]
    · simp [ih, hseen, hrow]
    · simp [counts_append, counts_replicate, ih, hseen, sameRow_congr hrow, sameRow_self,
        hmult row a hrow]
    · simp [counts_append, counts_replicate, ih, hseen, hrow]

theorem counts_expand (hmult : ∀ a b, sameRow a b = true → mult a = mult b) :
    counts (expand rows mult) row = if 0 < counts rows row then mult row else 0 := by
  rw [expand, counts_firstSeen hmult]
  simp [counts_pos]

theorem dedupKeepOrder_eq : dedupKeepOrder rows = expand rows fun _ => 1 := by
  simp [dedupKeepOrder, expand, flatMap_singleton']

theorem counts_combineRows (op : SetOp) (all : Bool) : counts (combineRows op all lrows rrows) row =
      multiplicity op all (counts lrows row) (counts rrows row) := by
  cases op with
  | union =>
    cases all with
    | true => exact counts_append
    | false =>
      simp only [combineRows, dedupKeepOrder_eq, multiplicity, Bool.false_eq_true, if_false]
      rw [counts_expand fun _ _ _ => rfl, counts_append]
      split_ifs <;> omega
  | intersect =>
    rw [combineRows, intersect, counts_expand fun a b h => by simp only [counts_congr h]]
    cases all <;> simp only [multiplicity, if_true, Bool.false_eq_true, if_false] <;>
      split_ifs <;> omega
  | except =>
    rw [combineRows, except, counts_expand fun a b h => by simp only [counts_congr h]]
    cases all <;> simp only [multiplicity, if_true, Bool.false_eq_true, if_false] <;>
      split_ifs <;> omega

variable {leaf : QueryBody → Result Relation} {tys : List ColumnType}

/-- The rows of a leaf as the nodes see them. -/
def leafRows (leaf : QueryBody → Result Relation) (tys : List ColumnType) (body : QueryBody) :
    Result (List (List Datum)) := do
  let rel ← leaf body
  coerceRows B rel tys

theorem counts_foldSet {depth : ℕ} {e : SetExpr} (h : foldSet B leaf tys depth e = .ok rows) :
    counts rows row =
      occurrences (fun body => (leafRows B leaf tys body).toOption.getD []) row e := by
  fun_induction foldSet B leaf tys depth e generalizing rows with
  | case1 => cases h
  | case2 depth body =>
    change leafRows B leaf tys body = .ok rows at h
    simp [occurrences, h, Except.toOption]
  | case3 => cases h
  | case4 depth op all left right _ ihl ihr =>
    obtain ⟨lrows, hl, h⟩ := bind_eq_ok.mp h
    obtain ⟨rrows, hr, h⟩ := bind_eq_ok.mp h
    cases h
    rw [counts_combineRows, ihl hl, ihr hr, occurrences]

theorem foldSet_ok {depth : ℕ} {e : SetExpr} :
    (∃ rows, foldSet B leaf tys depth e = .ok rows) ↔ depth + nodeDepth e ≤ maxSetopDepth ∧
      ∀ body ∈ leaves e, ∃ rows, leafRows B leaf tys body = .ok rows := by
  fun_induction foldSet B leaf tys depth e with
  | case1 depth body hdepth | case3 depth op all left right hdepth =>
    simp only [reduceCtorEq, exists_false, false_iff, not_and]
    intro hle
    omega
  | case2 depth body hdepth =>
    change (∃ rows, leafRows B leaf tys body = .ok rows) ↔ _
    simp [nodeDepth, leaves, not_lt.mp hdepth]
  | case4 depth op all left right hdepth ihl ihr =>
    constructor
    · rintro ⟨rows, h⟩
      obtain ⟨lrows, hl, h⟩ := bind_eq_ok.mp h
      obtain ⟨rrows, hr, -⟩ := bind_eq_ok.mp h
      obtain ⟨hl, hleaves⟩ := ihl.mp ⟨lrows, hl⟩
      obtain ⟨hr, hleaves'⟩ := ihr.mp ⟨rrows, hr⟩
      rw [nodeDepth]
      exact ⟨by omega, fun body hbody => (mem_append.mp hbody).elim (hleaves body)
        (hleaves' body)⟩
    · rintro ⟨hle, hleaves⟩
      rw [nodeDepth] at hle
      obtain ⟨lrows, hl⟩ := ihl.mpr
        ⟨by omega, fun body hbody => hleaves body (mem_append_left _ hbody)⟩
      obtain ⟨rrows, hr⟩ := ihr.mpr
        ⟨by omega, fun body hbody => hleaves body (mem_append_right _ hbody)⟩
      exact ⟨_, bind_eq_ok.mpr ⟨lrows, hl, bind_eq_ok.mpr ⟨rrows, hr, rfl⟩⟩⟩

end Crabgresql.Executor
