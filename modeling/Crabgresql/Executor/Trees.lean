import Crabgresql.Executor.Eval

/-!
# Recursion over expressions

The passes over an expression look at a node and go on to its children; the deepest
chain of children bounds their recursion. A pass that reads of its recursive results
only those of the children has one equation, whatever bound it runs under.
-/

namespace Crabgresql.Sql

/-! ## Children -/

/-- The subexpressions that the passes over an expression go on to. The expression beside a
subquery is none of them: a subquery is folded before, or stops the evaluator. -/
def Expr.children : Expr → List Expr
  | .unary _ e | .isNull e _ | .cast e _ => [e]
  | .binary _ l r => [l, r]
  | .func ⟨_, _, .exprs es⟩ => es
  | .inList e list _ => e :: list
  | .between e low high _ => [e, low, high]
  | .like e pattern _ _ => [e, pattern]
  | .case operand whens elseResult =>
    operand.toList ++ (whens.flatMap fun w => [w.1, w.2]) ++ elseResult.toList
  | _ => []

variable {e : Expr}

theorem depth_le_exprsDepth {es : List Expr} (h : e ∈ es) : e.depth ≤ exprsDepth es := by
  induction es with
  | nil => cases h
  | cons e' es ih =>
    simp only [exprsDepth]
    rcases List.mem_cons.mp h with rfl | h
    · exact le_max_left _ _
    · exact (ih h).trans (le_max_right _ _)

theorem depth_le_whensDepth {whens : List (Expr × Expr)} {w : Expr × Expr}
    (hw : w ∈ whens) (h : e = w.1 ∨ e = w.2) : e.depth ≤ whensDepth whens := by
  induction whens with
  | nil => cases hw
  | cons w' whens ih =>
    obtain ⟨c, r⟩ := w'
    simp only [whensDepth]
    rcases List.mem_cons.mp hw with rfl | hw
    · rcases h with rfl | rfl <;> omega
    · have := ih hw
      omega

theorem Expr.depth_child {s : Expr} (h : s ∈ e.children) : s.depth < e.depth := by
  cases e with
  | unary _ _ | isNull _ _ | cast _ _ | binary _ _ _ | between _ _ _ _ | like _ _ _ _ =>
    simp only [children, List.mem_cons, List.not_mem_nil, or_false] at h
    simp only [depth]
    obtain rfl | h := h <;> try omega
    all_goals obtain rfl | h := h <;> try omega
    all_goals
      subst h
      omega
  | func fc =>
    obtain ⟨name, distinct, args⟩ := fc
    cases args with
    | star => cases h
    | exprs es =>
      have : s.depth ≤ exprsDepth es := depth_le_exprsDepth h
      simp only [depth, FuncCall.depth, FuncArgs.depth]
      omega
  | inList e list negated =>
    simp only [depth]
    rcases List.mem_cons.mp h with rfl | h
    · omega
    · have := depth_le_exprsDepth h
      omega
  | case operand whens elseResult =>
    simp only [depth]
    simp only [children, List.mem_append, Option.mem_toList, List.mem_flatMap, List.mem_cons,
      List.not_mem_nil, or_false] at h
    obtain (rfl | ⟨w, hw, h⟩) | rfl := h
    · simp only [exprDepth?]
      omega
    · have := depth_le_whensDepth hw h
      omega
    · simp only [exprDepth?]
      omega
  | _ => cases h

/-- Induction along the children. -/
theorem Expr.childInduction {P : Expr → Prop}
    (h : ∀ e : Expr, (∀ s ∈ e.children, P s) → P e) (e : Expr) : P e := by
  induction hn : e.depth using Nat.strongRecOn generalizing e with
  | _ n ih => exact h e fun s hs => ih s.depth (hn ▸ depth_child hs) s rfl

/-! ## Passes -/

section passes

variable {α : Type} {step : (Expr → α) → Expr → α} {stuck stuck' : α} {m n : ℕ}

def descend (step : (Expr → α) → Expr → α) (stuck : α) : ℕ → Expr → α
  | 0, _ => stuck
  | n + 1, e => step (descend step stuck n) e

def Expr.pass (step : (Expr → α) → Expr → α) (stuck : α) (e : Expr) : α :=
  descend step stuck e.depth e

/-- Of the recursive results a step reads those of the children. -/
def Local (step : (Expr → α) → Expr → α) : Prop :=
  ∀ c c' e, (∀ s ∈ Expr.children e, c s = c' s) → step c e = step c' e

theorem Expr.depth_pos (e : Expr) : 0 < e.depth := by
  cases e <;> simp only [depth] <;> omega

theorem descend_congr (h : Local step) {e : Expr} (hm : e.depth ≤ m) (hn : e.depth ≤ n) :
    descend step stuck m e = descend step stuck' n e := by
  induction m generalizing n e with
  | zero => exact absurd e.depth_pos (by omega)
  | succ m ih =>
    cases n with
    | zero => exact absurd e.depth_pos (by omega)
    | succ n =>
      refine h _ _ e fun s hs => ?_
      have := Expr.depth_child hs
      exact ih (by omega) (by omega)

theorem Expr.pass_eq (h : Local step) (e : Expr) :
    e.pass step stuck = step (Expr.pass step stuck) e := by
  unfold pass
  obtain ⟨n, hn⟩ := Nat.exists_eq_succ_of_ne_zero e.depth_pos.ne'
  rw [hn]
  refine h _ _ e fun s hs => descend_congr h ?_ le_rfl
  have := Expr.depth_child hs
  omega

end passes

end Crabgresql.Sql

namespace Crabgresql.Executor

open Pgtypes Sql List

/-! ## Results -/

theorem bind_eq_ok {α β : Type} {x : Result α} {f : α → Result β} {b : β} :
    (x >>= f) = .ok b ↔ ∃ a, x = .ok a ∧ f a = .ok b := by
  cases x <;> simp [bind, Except.bind]

theorem mapM_eq_ok {α β : Type} {l : List α} {f : α → Result β} {r : List β} :
    l.mapM f = .ok r ↔ Forall₂ (fun a b => f a = .ok b) l r := by
  induction l generalizing r with
  | nil => cases r <;> simp [pure, Except.pure]
  | cons a l ih =>
    rw [mapM_cons]
    cases ha : f a with
    | error => simp [bind, Except.bind, forall₂_cons_left_iff, ha]
    | ok b =>
      cases hl : l.mapM f with
      | error => simp [bind, Except.bind, forall₂_cons_left_iff, ← ih, hl]
      | ok bs =>
        simp only [bind, Except.bind, pure, Except.pure, Except.ok.injEq,
          forall₂_cons_left_iff, ha, ← ih, hl]
        exact ⟨fun h => ⟨b, bs, rfl, rfl, h.symm⟩, fun ⟨_, _, hb, hbs, h⟩ => by rw [h, hb, hbs]⟩

/-! ## The evaluators' frame -/

/-- `r'` is `r` and fails at most with an error of `kept`, unless `r` is an error of `lost`. -/
def Tracks {α : Type} (lost kept : ExecError → Prop) (r r' : Result α) : Prop :=
  (∃ e, r = .error e ∧ lost e) ∨ (r' = r ∧ ∀ e, r = .error e → kept e)

section tracks

variable {α β : Type} {lost kept : ExecError → Prop} {B : Builtins}

theorem tracks_ok (a : α) : Tracks lost kept (.ok a : Result α) (.ok a) :=
  .inr ⟨rfl, nofun⟩

theorem tracks_error {e : ExecError} (h : kept e) :
    Tracks lost kept (.error e : Result α) (.error e) :=
  .inr ⟨rfl, fun _ he => Except.error.inj he ▸ h⟩

theorem tracks_rfl (r : Result α) : Tracks lost (fun _ => True) r r :=
  .inr ⟨rfl, fun _ _ => trivial⟩

theorem Tracks.bind {r r' : Result α} {f f' : α → Result β} (h : Tracks lost kept r r')
    (hf : ∀ a, Tracks lost kept (f a) (f' a)) : Tracks lost kept (r >>= f) (r' >>= f') := by
  obtain ⟨e, rfl, he⟩ | ⟨rfl, hkept⟩ := h
  · exact .inl ⟨e, rfl, he⟩
  · cases r' with
    | ok a => exact hf a
    | error e => exact tracks_error (hkept e rfl)

theorem tracks_ite {c : Prop} [Decidable c] {r r' s s' : Result α} (h : Tracks lost kept r r')
    (hs : Tracks lost kept s s') :
    Tracks lost kept (if c then r else s) (if c then r' else s') := by
  split_ifs
  · exact h
  · exact hs

/-- The results of the arguments of a call, pairwise. -/
theorem tracks_mapM_id {args args' : List (Result α)} (h : Forall₂ (Tracks lost kept) args args') :
    Tracks lost kept (args.mapM id) (args'.mapM id) := by
  induction h with
  | nil => exact tracks_ok []
  | cons hr _ ih =>
    rw [mapM_cons, mapM_cons]
    exact hr.bind fun a => ih.bind fun as => tracks_ok _

variable {args args' : List (Result Datum)} {name : String}

theorem tracks_coalesce (h : Forall₂ (Tracks lost kept) args args') :
    Tracks lost kept (coalesce args) (coalesce args') := by
  induction h with
  | nil => exact tracks_ok _
  | cons hr _ ih => exact hr.bind fun v => tracks_ite ih (tracks_ok v)

variable (hkept : ∀ e, kept (.value e))

include hkept

theorem tracks_lift (r : Except ValueError α) : Tracks lost kept (lift r) (lift r) := by
  cases r with
  | ok a => exact tracks_ok a
  | error e => exact tracks_error (hkept e)

theorem tracks_cell (row : List Datum) (i : ℕ) : Tracks lost kept (cell row i) (cell row i) := by
  unfold cell
  split
  · exact tracks_ok _
  · exact tracks_error (hkept _)

theorem tracks_columnValue (scope : Scope) (row : List Datum) (t : Option String) (n : String) :
    Tracks lost kept (columnValue scope row t n) (columnValue scope row t n) :=
  (tracks_lift hkept _).bind fun _ => tracks_cell hkept row _

theorem tracks_evalInList {x : Datum} {negated : Bool} {items items' : List (Result Datum)}
    (h : Forall₂ (Tracks lost kept) items items') (sawNull : Bool) :
    Tracks lost kept (evalInList B x negated items sawNull)
      (evalInList B x negated items' sawNull) := by
  induction h generalizing sawNull with
  | nil => exact tracks_ok _
  | cons hr _ ih =>
    refine hr.bind fun v => (tracks_lift hkept _).bind fun ord => ?_
    split
    · exact tracks_ok _
    · exact ih _
    · exact ih _

theorem tracks_evalCase {operand operand' : Option (Result Datum)}
    {whens whens' : List (Result Datum × Result Datum)} {otherwise otherwise' : Result Datum}
    (hop : Option.Rel (Tracks lost kept) operand operand')
    (hwhens : Forall₂ (fun w w' => Tracks lost kept w.1 w'.1 ∧ Tracks lost kept w.2 w'.2)
      whens whens')
    (helse : Tracks lost kept otherwise otherwise') :
    Tracks lost kept (evalCase B operand whens otherwise)
      (evalCase B operand' whens' otherwise') := by
  cases hop with
  | none =>
    change Tracks lost kept (searchedCase otherwise whens) (searchedCase otherwise' whens')
    induction hwhens with
    | nil => exact helse
    | cons hw _ ih =>
      refine hw.1.bind fun v => ?_
      split
      · exact hw.2
      · exact ih
      · exact ih
      · exact tracks_error (hkept _)
  | some hop =>
    refine hop.bind fun ov => ?_
    induction hwhens with
    | nil => exact helse
    | cons hw _ ih =>
      refine hw.1.bind fun v => (tracks_lift hkept _).bind fun ord => ?_
      split
      · exact hw.2
      · exact ih

theorem tracks_extremum {want : Ordering}
    (h : Forall₂ (Tracks lost kept) args args') (best : Option Datum) :
    Tracks lost kept (extremum B want args best) (extremum B want args' best) := by
  induction h generalizing best with
  | nil => exact tracks_ok _
  | cons hr _ ih =>
    refine hr.bind fun v => tracks_ite (ih best) ?_
    cases best with
    | none => exact ih _
    | some => exact (tracks_lift hkept _).bind fun ord => ih _

theorem tracks_requireArity (name : String) (ok : Bool) :
    Tracks lost kept (requireArity name ok) (requireArity name ok) :=
  tracks_ite (tracks_ok _) (tracks_error (hkept _))

theorem tracks_evalScalar {distinct : Bool} (h : Forall₂ (Tracks lost kept) args args') :
    Tracks lost kept (evalScalar B name distinct args) (evalScalar B name distinct args') := by
  have hempty : args.isEmpty = args'.isEmpty := by cases h <;> rfl
  unfold evalScalar
  refine tracks_ite (tracks_error (hkept _)) ?_
  rw [hempty]
  split
  · exact (tracks_requireArity hkept _ _).bind fun _ => tracks_coalesce h
  · exact (tracks_requireArity hkept _ _).bind fun _ => tracks_extremum hkept h none
  · exact (tracks_requireArity hkept _ _).bind fun _ => tracks_extremum hkept h none
  · obtain _ | ⟨ha, _ | ⟨hb, _ | ⟨_, _⟩⟩⟩ := h
    · exact tracks_error (hkept _)
    · exact tracks_error (hkept _)
    · refine ha.bind fun a => hb.bind fun b => ?_
      exact (tracks_lift hkept _).bind fun ord => tracks_ok _
    · exact tracks_error (hkept _)
  · exact (tracks_mapM_id h).bind fun vals => tracks_lift hkept _

theorem tracks_strict2 {a a' b b' : Result Datum} {more : List Datum}
    (ha : Tracks lost kept a a') (hb : Tracks lost kept b b') :
    Tracks lost kept (strict2 B name a b more) (strict2 B name a' b' more) :=
  ha.bind fun _ => hb.bind fun _ => tracks_ite (tracks_ok _) (tracks_lift hkept _)

theorem tracks_evalDatetime {exprs : List Expr} (h : Forall₂ (Tracks lost kept) args args') :
    Tracks lost kept (evalDatetime B name exprs args) (evalDatetime B name exprs args') := by
  have hundefined : Tracks lost kept (.error (.value (undefinedFunction name)) : Result Datum)
      (.error (.value (undefinedFunction name))) := tracks_error (hkept _)
  unfold evalDatetime
  split
  · obtain _ | ⟨field, _ | ⟨source, _ | ⟨_, _⟩⟩⟩ := exprs
    · exact hundefined
    · cases field <;> exact hundefined
    · obtain _ | ⟨_, _ | ⟨hb, _ | ⟨_, _⟩⟩⟩ := h <;> cases field <;>
        first
        | exact tracks_strict2 hkept (tracks_ok _) hb
        | exact tracks_error (hkept _)
    · cases field <;> exact hundefined
  · obtain _ | ⟨ha, _ | ⟨hb, _ | ⟨_, _⟩⟩⟩ := h <;> try exact hundefined
    exact tracks_strict2 hkept ha hb
  · obtain _ | ⟨ha, _ | ⟨hb, _ | ⟨_, _⟩⟩⟩ := h <;> try exact hundefined
    exact tracks_strict2 hkept ha hb
  · obtain _ | ⟨ha, _ | ⟨hb, _ | ⟨hc, _ | ⟨_, _⟩⟩⟩⟩ := h <;> try exact hundefined
    · exact tracks_strict2 hkept ha hb
    · refine ha.bind fun u => hb.bind fun s => hc.bind fun z => ?_
      refine (tracks_lift hkept _).bind fun _ => ?_
      exact tracks_strict2 hkept (tracks_ok _) (tracks_ok _)
  · obtain _ | ⟨ha, _ | ⟨hb, _ | ⟨_, _⟩⟩⟩ := h <;> try exact hundefined
    · exact ha.bind fun a => tracks_ite (tracks_ok _) (tracks_lift hkept _)
    · refine ha.bind fun a => tracks_ite (tracks_ok _) ?_
      exact tracks_strict2 hkept (tracks_ok _) hb
  · obtain _ | ⟨_, _⟩ := h
    · exact tracks_lift hkept _
    · exact hundefined

theorem tracks_evalFunc {child child' : Expr → Result Datum}
    {misplaced misplaced' : FuncCall → ExecError} {fc : FuncCall}
    (hmis : ¬ isCall fc.name → misplaced fc = misplaced' fc ∧ kept (misplaced fc))
    (h : ∀ s ∈ (Expr.func fc).children, Tracks lost kept (child s) (child' s)) :
    Tracks lost kept (evalFunc B child misplaced fc) (evalFunc B child' misplaced' fc) := by
  obtain ⟨name, distinct, args⟩ := fc
  unfold evalFunc
  by_cases hcall : isCall name
  · rw [if_pos hcall, if_pos hcall]
    cases args with
    | star => exact tracks_ite (tracks_evalScalar hkept .nil) (tracks_error (hkept _))
    | exprs es =>
      have hall : Forall₂ (Tracks lost kept) (es.map child) (es.map child') := by
        rw [forall₂_map_left_iff, forall₂_map_right_iff, forall₂_same]
        exact h
      refine tracks_ite (tracks_evalScalar hkept hall) (tracks_ite ?_ ?_)
      · exact tracks_evalDatetime hkept hall
      · exact (tracks_mapM_id hall).bind fun vals => tracks_lift hkept _
  · obtain ⟨heq, hkept⟩ := hmis hcall
    rw [if_neg hcall, if_neg hcall, ← heq]
    exact tracks_error hkept

/-- A frame over children that track each other. -/
theorem tracks_evalNode {child child' : Expr → Result Datum} {e : Expr}
    {column column' : Option String → String → Result Datum}
    {misplaced misplaced' : FuncCall → ExecError}
    (hcol : ∀ t n, e = .column t n → Tracks lost kept (column t n) (column' t n))
    (hmis : ∀ fc, e = .func fc → ¬ isCall fc.name →
      misplaced fc = misplaced' fc ∧ kept (misplaced fc))
    (h : ∀ s ∈ e.children, Tracks lost kept (child s) (child' s)) :
    Tracks lost kept (evalNode B child column misplaced e)
      (evalNode B child' column' misplaced' e) := by
  cases e with
  | intLiteral => exact tracks_lift hkept _
  | numericLiteral s =>
    rw [evalNode, evalNode]
    cases B.parseNumeric s with
    | some => exact tracks_ok _
    | none => exact tracks_error (hkept _)
  | param n | scalarSubquery q | «exists» q | inSubquery e q n | quantified e op all q =>
    exact tracks_error (hkept _)
  | column t n => exact hcol t n rfl
  | unary op e => exact (h e mem_cons_self).bind fun v => tracks_lift hkept _
  | isNull e negated => exact (h e mem_cons_self).bind fun v => tracks_ok _
  | cast e ty => exact (h e mem_cons_self).bind fun v => tracks_lift hkept _
  | binary op l r =>
    refine (h l mem_cons_self).bind fun v => ?_
    exact (h r (by simp [Expr.children])).bind fun w => tracks_lift hkept _
  | like l r negated ci =>
    refine (h l mem_cons_self).bind fun v => ?_
    exact (h r (by simp [Expr.children])).bind fun w => tracks_lift hkept _
  | between e low high negated =>
    refine (h e mem_cons_self).bind fun x => ?_
    refine (h low (by simp [Expr.children])).bind fun lo => ?_
    exact (h high (by simp [Expr.children])).bind fun hi => tracks_lift hkept _
  | func fc => exact tracks_evalFunc hkept (hmis fc rfl) h
  | inList e list negated =>
    refine (h e mem_cons_self).bind fun x => tracks_ite (tracks_ok _) ?_
    refine tracks_evalInList hkept ?_ false
    rw [forall₂_map_left_iff, forall₂_map_right_iff, forall₂_same]
    exact fun s hs => h s (mem_cons_of_mem _ hs)
  | case operand whens elseResult =>
    simp only [Expr.children, mem_append, Option.mem_toList, mem_flatMap,
      mem_cons, not_mem_nil, or_false] at h
    refine tracks_evalCase hkept ?_ ?_ ?_
    · cases operand with
      | none => exact .none
      | some s => exact .some (h s (.inl (.inl rfl)))
    · rw [forall₂_map_left_iff, forall₂_map_right_iff, forall₂_same]
      exact fun w hw =>
        ⟨h w.1 (.inl (.inr ⟨w, hw, .inl rfl⟩)), h w.2 (.inl (.inr ⟨w, hw, .inr rfl⟩))⟩
    · cases elseResult with
      | none => exact tracks_ok _
      | some s => exact h s (.inr rfl)
  | _ => exact tracks_ok _

end tracks

end Crabgresql.Executor
