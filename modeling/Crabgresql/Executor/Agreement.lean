import Crabgresql.Executor.Grouping

/-!
# The grouped evaluator and the row evaluator

On an expression without aggregates the grouped evaluator returns what the row
evaluator returns on any row of the group, where it takes the value of a grouping
expression from the key: the row evaluator would compute that value again. What the
checks before the first row accept never meets a column outside the key or an
aggregate without a result.
-/

namespace Crabgresql.Executor

open Pgtypes Sql List Except

variable {B : Builtins} {scope : Scope} {row : List Datum} {groupBy : List Expr} {e : Expr}
variable {specs specs' : List AggSpec}

def Subexpr : Expr → Expr → Prop := Relation.ReflTransGen fun s e => s ∈ e.children

/-! ## More frames -/

theorem evalWithin_mono {m n : ℕ} (h : m ≤ n) (e : Expr) :
    Tracks (· = .stackDepthExceeded) (fun _ => True) (evalWithin B scope row m e)
      (evalWithin B scope row n e) := by
  induction m generalizing n e with
  | zero => exact .inl ⟨_, rfl, rfl⟩
  | succ m ih =>
    obtain _ | n := n
    · omega
    · refine tracks_evalNode (fun _ => trivial) (fun _ _ _ => tracks_rfl _)
        (fun _ _ _ => ⟨rfl, trivial⟩) fun s _ => ih (by omega) s

/-! ## The checks before the first row -/

section checks

variable {groupBy : List Expr}

theorem forM_eq_ok {es : List Expr} {f : Expr → Result Unit} :
    forM es f = .ok () ↔ ∀ s ∈ es, f s = .ok () := by
  induction es with
  | nil => simp [pure, Except.pure]
  | cons s es ih =>
    rw [forM_cons, forall_mem_cons, ← ih]
    cases f s <;> simp [bind, Except.bind]

theorem containsAggregate_eq_false : containsAggregate e = false ↔
      aggregate? e = none ∧ ∀ s ∈ e.children, containsAggregate s = false := by
  have hlocal : Local fun (child : Expr → Bool) e =>
      (aggregate? e).isSome || e.children.any child := by
    intro c c' e h
    have : e.children.any c = e.children.any c' := by
      rw [Bool.eq_iff_iff, List.any_eq_true, List.any_eq_true]
      exact exists_congr fun s => and_congr_right fun hs => by rw [h s hs]
    simp only [this]
  unfold containsAggregate
  rw [Expr.pass_eq hlocal]
  simp

theorem local_validateNode : Local (validateNode B groupBy) := by
  intro c c' e h
  have hchildren : forM e.children c = forM e.children c' := by
    generalize e.children = es at h
    induction es with
    | nil => rfl
    | cons s es ih =>
      rw [forM_cons, forM_cons, h s mem_cons_self,
        ih fun s hs => h s (mem_cons_of_mem _ hs)]
  cases e <;> simp only [validateNode, hchildren]

theorem validateGrouped_inv (h : validateGrouped B groupBy e = .ok ())
    (hagg : aggregate? e = none) (hkey : groupBy.any (sameExpr B · e) = false) :
    (∀ t n, e ≠ .column t n) ∧ (∀ fc, e = .func fc → isCall fc.name) ∧
      ∀ s ∈ e.children, validateGrouped B groupBy s = .ok () := by
  have hnode : validateNode B groupBy (validateGrouped B groupBy) e = .ok () :=
    (Expr.pass_eq local_validateNode e).symm.trans h
  cases e with
  | column => simp [validateNode, hagg, hkey] at hnode
  | func fc =>
    by_cases hcall : isCall fc.name
    · refine ⟨nofun, fun fc' hfc => Expr.func.inj hfc ▸ hcall, forM_eq_ok.mp ?_⟩
      simpa [validateNode, hagg, hkey, hcall] using hnode
    · simp [validateNode, hagg, hkey, hcall] at hnode
  | _ =>
    refine ⟨nofun, nofun, forM_eq_ok.mp ?_⟩
    simpa [validateNode, hagg, hkey] using hnode

theorem local_collectNode : Local (collectNode B scope) := by
  intro c c' e h
  have hchildren : ∀ specs, e.children.foldlM (fun specs s => c s specs) specs =
      e.children.foldlM (fun specs s => c' s specs) specs := by
    generalize e.children = es at h
    induction es with
    | nil => exact fun _ => rfl
    | cons s es ih =>
      intro specs
      rw [foldlM_cons, foldlM_cons, h s mem_cons_self]
      exact congrArg _ (funext fun specs => ih (fun s hs => h s (mem_cons_of_mem _ hs)) specs)
  funext specs
  cases e <;> simp only [collectNode, hchildren]

/-- A later result of collecting has the aggregates of `e` among its first. -/
def Gathered (B : Builtins) (scope : Scope) (specs : List AggSpec) (e : Expr) : Prop :=
  ∃ found found', collectSpecs B scope e found = .ok found' ∧ found' <+: specs

theorem collectSpecs_eq (specs : List AggSpec) :
    collectSpecs B scope e specs = collectNode B scope (collectSpecs B scope) e specs :=
  congrFun (Expr.pass_eq local_collectNode e) specs

/-- What a traversal of the children adds stands after what it began with, and each child's part
before what follows. -/
theorem foldlM_collect {es : List Expr}
    (hmono : ∀ s ∈ es, ∀ a b, collectSpecs B scope s a = .ok b → a <+: b)
    (h : es.foldlM (fun specs s => collectSpecs B scope s specs) specs = .ok specs') :
    specs <+: specs' ∧ ∀ s ∈ es, Gathered B scope specs' s := by
  induction es generalizing specs with
  | nil => exact ⟨ok.inj h ▸ prefix_rfl, nofun⟩
  | cons s es ih =>
    rw [foldlM_cons] at h
    cases hs : collectSpecs B scope s specs with
    | error => simp [hs, bind, Except.bind] at h
    | ok mid =>
      rw [hs] at h
      obtain ⟨hmid, hrest⟩ := ih (fun s hs => hmono s (mem_cons_of_mem _ hs)) h
      refine ⟨(hmono s mem_cons_self _ _ hs).trans hmid, fun c hc => ?_⟩
      rcases mem_cons.mp hc with rfl | hc
      · exact ⟨specs, mid, hs, hmid⟩
      · exact hrest c hc

theorem collectSpecs_children (hagg : aggregate? e = none)
    (h : collectSpecs B scope e specs = .ok specs') :
    e.children.foldlM (fun specs s => collectSpecs B scope s specs) specs = .ok specs' := by
  rw [collectSpecs_eq] at h
  cases e with
  | func fc =>
    by_cases hcall : isCall fc.name
    · simpa [collectNode, hagg, hcall] using h
    · simp [collectNode, hagg, hcall] at h
  | _ => simpa [collectNode, hagg] using h

theorem collectSpecs_aggregate {fc : FuncCall} (hagg : aggregate? e = some fc)
    (h : collectSpecs B scope e specs = .ok specs') : ∃ spec, specOf B scope fc = .ok spec ∧
      specs' = if specs.any (sameSpec B · spec) then specs else specs ++ [spec] := by
  rw [collectSpecs_eq, collectNode.eq_def, hagg] at h
  dsimp only at h
  cases hspec : specOf B scope fc with
  | error => simp [hspec, bind, Except.bind] at h
  | ok spec =>
    rw [hspec] at h
    exact ⟨spec, rfl, (ok.inj h).symm⟩

theorem collectSpecs_mono (e : Expr) (h : collectSpecs B scope e specs = .ok specs') :
    specs <+: specs' := by
  induction e using Expr.childInduction generalizing specs specs' with
  | h e ih =>
    cases hagg : aggregate? e with
    | none => exact (foldlM_collect (fun s hs _ _ => ih s hs) (collectSpecs_children hagg h)).1
    | some =>
      obtain ⟨spec, -, rfl⟩ := collectSpecs_aggregate hagg h
      split_ifs
      · exact prefix_rfl
      · exact prefix_append _ _

theorem Gathered.children (h : Gathered B scope specs e) (hagg : aggregate? e = none) :
    ∀ s ∈ e.children, Gathered B scope specs s := by
  obtain ⟨found, found', h, hpre⟩ := h
  intro s hs
  obtain ⟨a, b, hab, hb⟩ := (foldlM_collect (fun s _ _ _ => collectSpecs_mono s)
    (collectSpecs_children hagg h)).2 s hs
  exact ⟨a, b, hab, hb.trans hpre⟩

theorem sameSpec_self (spec : AggSpec) : sameSpec B spec spec = true := by
  simp [sameSpec, sameExpr?_self]

theorem Gathered.found (h : Gathered B scope specs e) {fc : FuncCall}
    (hagg : aggregate? e = some fc) :
    ∃ spec i, specOf B scope fc = .ok spec ∧ specs.findIdx? (sameSpec B · spec) = some i := by
  obtain ⟨found, found', h, hpre⟩ := h
  obtain ⟨spec, hspec, rfl⟩ := collectSpecs_aggregate hagg h
  have hany : ∃ s ∈ specs, sameSpec B s spec = true := by
    split_ifs at hpre with hin
    · obtain ⟨s, hs, hsame⟩ := List.any_eq_true.mp hin
      exact ⟨s, hpre.subset hs, hsame⟩
    · exact ⟨spec, hpre.subset (by simp), sameSpec_self spec⟩
  cases hidx : specs.findIdx? (sameSpec B · spec) with
  | none =>
    obtain ⟨s, hs, hsame⟩ := hany
    exact absurd hsame (by simpa using findIdx?_eq_none_iff.mp hidx s hs)
  | some i => exact ⟨spec, i, hspec, hidx⟩

end checks

/-! ## Agreement -/

theorem evalGroupedWithin_tracks {G : Group} {n : ℕ}
    (hkeys : G.groupBy.mapM (eval B · scope row) = .ok G.key) (hn : n ≤ maxEvalDepth + 1)
    (hagg : containsAggregate e = false) (hvalid : validateGrouped B G.groupBy e = .ok ())
    (hsame : ∀ g ∈ G.groupBy, ∀ s, Subexpr s e → sameExpr B g s → g = s) :
    Tracks (· = .stackDepthExceeded) (fun _ => True) (evalWithin B scope row n e)
      (evalGroupedWithin B G scope n e) := by
  induction n generalizing e with
  | zero => exact .inl ⟨_, rfl, rfl⟩
  | succ n ih =>
    obtain ⟨hnone, hchildren⟩ := containsAggregate_eq_false.mp hagg
    change Tracks _ _ _ (G.node B scope (evalGroupedWithin B G scope n) e)
    rw [Group.node, hnone]
    dsimp only
    cases hidx : G.groupBy.findIdx? (sameExpr B · e) with
    | some i =>
      -- the key has the value of the expression, computed with all the frames
      obtain ⟨hi, hmatch, -⟩ := findIdx?_eq_some_iff_getElem.mp hidx
      have he : G.groupBy[i] = e :=
        hsame _ (getElem_mem hi) e Relation.ReflTransGen.refl hmatch
      obtain ⟨hlen, hvalue⟩ := forall₂_iff_get.mp (mapM_eq_ok.mp hkeys)
      have hv := hvalue i hi (hlen ▸ hi)
      rw [get_eq_getElem, he] at hv
      have hcell : cell G.key i = evalWithin B scope row (maxEvalDepth + 1) e := by
        rw [cell, getElem?_eq_getElem (hlen ▸ hi)]
        exact hv.symm
      change Tracks _ _ _ (cell G.key i)
      rw [hcell]
      exact evalWithin_mono hn e
    | none =>
      have hkey : G.groupBy.any (sameExpr B · e) = false := by
        simpa using findIdx?_eq_none_iff.mp hidx
      obtain ⟨hcol, hcall, hvalid⟩ := validateGrouped_inv hvalid hnone hkey
      refine tracks_evalNode (fun _ => trivial) (fun t c he => absurd he (hcol t c))
        (fun fc he hno => absurd (hcall fc he) hno) fun s hs => ?_
      refine ih (by omega) (hchildren s hs) (hvalid s hs) fun g hg c hc => ?_
      exact hsame g hg c (hc.tail hs)

/-- An error of the checks before the first row. -/
def Unchecked (e : ExecError) : Prop :=
  e = .grouping "aggregate not resolved" ∨ ∃ name, e = ungroupedColumn name

theorem value_checked (e : ValueError) : ¬ Unchecked (.value e) := by
  simp [Unchecked, ungroupedColumn]

theorem evalGroupedWithin_checked {G : Group} (n : ℕ)
    (hvalid : validateGrouped B G.groupBy e = .ok ()) (h : Gathered B scope G.specs e) :
    Tracks (fun _ => False) (fun e => ¬ Unchecked e) (evalGroupedWithin B G scope n e)
      (evalGroupedWithin B G scope n e) := by
  induction n generalizing e with
  | zero => exact tracks_error (by simp [Unchecked, ungroupedColumn])
  | succ n ih =>
    have hstep : evalGroupedWithin B G scope (n + 1) e =
        G.node B scope (evalGroupedWithin B G scope n) e := rfl
    rw [hstep, Group.node]
    cases hagg : aggregate? e with
    | some =>
      obtain ⟨spec, i, hspec, hidx⟩ := h.found hagg
      simp only [hspec, bind, Except.bind, hidx]
      exact tracks_cell value_checked _ _
    | none =>
      dsimp only
      cases hidx : G.groupBy.findIdx? (sameExpr B · e) with
      | some => exact tracks_cell value_checked _ _
      | none =>
        have hkey : G.groupBy.any (sameExpr B · e) = false := by
          simpa using findIdx?_eq_none_iff.mp hidx
        obtain ⟨hcol, hcall, hvalid⟩ := validateGrouped_inv hvalid hagg hkey
        exact tracks_evalNode value_checked (fun t c he => absurd he (hcol t c))
          (fun fc he hno => absurd (hcall fc he) hno)
          fun s hs => ih (hvalid s hs) (h.children hagg s hs)

end Crabgresql.Executor
