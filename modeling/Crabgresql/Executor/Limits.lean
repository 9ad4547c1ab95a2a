import Crabgresql.Executor.Grouping

/-!
# The evaluators' recursion limit

Either evaluator gives up a chain of left operands that has more levels than the
evaluator has frames, and no tree that has fewer.
-/

namespace Crabgresql.Executor

open Pgtypes Sql

variable {B : Builtins} {scope : Scope} {row : List Datum} {G : Group} {n k : ℕ} {e : Expr}

/-! ## Trees within the limit -/

/-- Fails, if at all, with another error than that of the limit. -/
def InLimit {α : Type} (r : Result α) : Prop :=
  Tracks (fun _ => False) (· ≠ .stackDepthExceeded) r r

theorem InLimit.ne {α : Type} {r : Result α} (h : InLimit r) : r ≠ .error .stackDepthExceeded := by
  rintro rfl
  obtain ⟨_, _, ⟨⟩⟩ | ⟨-, h⟩ := h
  exact h _ rfl rfl

theorem value_inLimit (e : ValueError) : ExecError.value e ≠ .stackDepthExceeded := nofun

theorem evalWithin_inLimit (h : e.depth ≤ n) : InLimit (evalWithin B scope row n e) := by
  induction n generalizing e with
  | zero => exact absurd e.depth_pos (by omega)
  | succ n ih =>
    refine tracks_evalNode value_inLimit (fun t c _ => ?_) (fun fc _ _ => ⟨rfl, ?_⟩) ?_
    · exact tracks_columnValue value_inLimit scope row t c
    · unfold funcInScalarContextError
      split_ifs <;> simp
    · intro s hs
      have := Expr.depth_child hs
      exact ih (by omega)

theorem specOf_inLimit (fc : FuncCall) : InLimit (specOf B scope fc) := by
  unfold specOf
  split
  · exact tracks_error (by simp)
  · exact tracks_ok _
  · refine tracks_ite (tracks_error (by simp)) ?_
    refine (tracks_lift value_inLimit _).bind fun t => ?_
    exact tracks_ite (tracks_error (by simp)) (tracks_ok _)
  · exact tracks_error (by simp)

theorem evalGroupedWithin_inLimit (h : e.depth ≤ n) :
    InLimit (evalGroupedWithin B G scope n e) := by
  induction n generalizing e with
  | zero => exact absurd e.depth_pos (by omega)
  | succ n ih =>
    change InLimit (G.node B scope (evalGroupedWithin B G scope n) e)
    unfold Group.node
    split
    · refine (specOf_inLimit _).bind fun spec => ?_
      split
      · exact tracks_cell value_inLimit _ _
      · exact tracks_error (by simp)
    · split
      · exact tracks_cell value_inLimit _ _
      · refine tracks_evalNode value_inLimit (fun t c _ => ?_) (fun fc _ _ => ⟨rfl, ?_⟩) ?_
        · exact tracks_error (by simp [ungroupedColumn])
        · simp
        · intro s hs
          have := Expr.depth_child hs
          exact ih (by omega)

def leftDepth : Expr → ℕ
  | .binary _ l _ => leftDepth l + 1
  | _ => 1

theorem evalWithin_leftDepth (h : n < leftDepth e) :
    evalWithin B scope row n e = .error .stackDepthExceeded := by
  induction n generalizing e with
  | zero => rfl
  | succ n ih =>
    cases e with
    | binary =>
      have hl := ih (Nat.lt_of_succ_lt_succ h)
      simp only [evalWithin, evalNode, hl]
      rfl
    | _ => exact absurd h (by simp [leftDepth])

end Crabgresql.Executor
