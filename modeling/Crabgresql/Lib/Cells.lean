import Mathlib

/-!
# Updates of one cell at a time

A store of cells, and operations that each read and write the one cell of their
key. A list of operations can be run cell by cell: every cell sees the
operations of its own key only, in their order. What is true of every cell's own
run, such as that running it again changes nothing, is then true of the store.
-/

namespace Cells

open Option

variable {α β ω : Type*} [DecidableEq α] (key : ω → α) (cell : ω → β → Option β)

def apply (f : α → β) (op : ω) : Option (α → β) :=
  (cell op (f (key op))).map (Function.update f (key op))

def run (f : α → β) (ops : List ω) : Option (α → β) := ops.foldlM (apply key cell) f

def runCell (b : β) (ops : List ω) : Option β := ops.foldlM (fun b op => cell op b) b

def on (k : α) (ops : List ω) : List ω := ops.filter fun op => decide (key op = k)

variable {key cell} {f f' : α → β} {op : ω} {ops : List ω} {k : α} {b b' : β}

theorem runCell_nil : runCell cell b [] = some b := rfl

theorem runCell_cons : runCell cell b (op :: ops) = some b' ↔
      ∃ c, cell op b = some c ∧ runCell cell c ops = some b' := by
  simp only [runCell, List.foldlM_cons, bind_eq_bind, bind_eq_some_iff]

theorem run_cons : run key cell f (op :: ops) = some f' ↔
      ∃ c, cell op (f (key op)) = some c ∧
        run key cell (Function.update f (key op) c) ops = some f' := by
  simp only [run, List.foldlM_cons, bind_eq_bind, bind_eq_some_iff, apply,
    map_eq_some_iff]
  constructor
  · rintro ⟨_, ⟨c, hc, rfl⟩, hrest⟩
    exact ⟨c, hc, hrest⟩
  · rintro ⟨c, hc, hrest⟩
    exact ⟨_, ⟨c, hc, rfl⟩, hrest⟩

theorem on_cons_self : on key (key op) (op :: ops) = op :: on key (key op) ops := by
  simp [on]

theorem on_cons_ne (h : key op ≠ k) : on key k (op :: ops) = on key k ops := by
  simp [on, h]

/-- A run of the store is a run of every cell. -/
theorem run_iff : run key cell f ops = some f' ↔
    ∀ k, runCell cell (f k) (on key k ops) = some (f' k) := by
  induction ops generalizing f with
  | nil =>
    constructor
    · rintro h k
      cases h
      rfl
    · intro h
      have hf : f = f' := funext fun k => Option.some.inj (h k)
      rw [hf]
      rfl
  | cons op ops ih =>
    rw [run_cons]
    constructor
    · rintro ⟨c, hc, hrest⟩ k
      have hk := ih.mp hrest k
      by_cases hop : key op = k
      · subst hop
        rw [Function.update_self] at hk
        rw [on_cons_self]
        exact runCell_cons.mpr ⟨c, hc, hk⟩
      · rw [Function.update_of_ne (Ne.symm hop)] at hk
        rw [on_cons_ne hop]
        exact hk
    · intro h
      have hself := h (key op)
      rw [on_cons_self] at hself
      obtain ⟨c, hc, hrest⟩ := runCell_cons.mp hself
      refine ⟨c, hc, ih.mpr fun k => ?_⟩
      by_cases hop : key op = k
      · subst hop
        rw [Function.update_self]
        exact hrest
      · rw [Function.update_of_ne (Ne.symm hop), ← on_cons_ne hop]
        exact h k

/-- If every cell can run its operations again and ends where it is, so can the store, with all
operations or with those of any set of keys. -/
theorem run_again (hcell : ∀ k b b', runCell cell b (on key k ops) = some b' →
      runCell cell b' (on key k ops) = some b') (h : run key cell f ops = some f')
    (p : α → Bool) : run key cell f' (ops.filter fun op => p (key op)) = some f' := by
  rw [run_iff] at h ⊢
  intro k
  have hon : on key k (ops.filter fun op => p (key op)) = if p k then on key k ops else [] := by
    rw [on, List.filter_filter]
    split_ifs with hp
    · refine List.filter_congr fun op _ => ?_
      by_cases hk : key op = k
      · simp [hk, hp]
      · simp [hk]
    · refine List.filter_eq_nil_iff.mpr fun op _ => ?_
      intro hk
      simp only [Bool.and_eq_true, decide_eq_true_eq] at hk
      exact hp (hk.1 ▸ hk.2)
  rw [hon]
  split_ifs
  · exact hcell k (f k) (f' k) (h k)
  · exact runCell_nil

end Cells
