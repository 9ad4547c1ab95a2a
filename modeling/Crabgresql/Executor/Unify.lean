import Crabgresql.Executor.Grouping

/-!
# The common type of branches

A CASE, a column of VALUES and a column of a chain of set operations take the common type
of their branches, folded pairwise. Where double precision meets only numbers, the fold is
the least upper bound in the numeric tower, whatever the order.
-/

namespace Crabgresql.Executor

open Pgtypes List

def unifyCol (lt : ColumnType) (lunk : Bool) (rt : ColumnType) (runk : Bool) :
    Except ValueError (ColumnType × Bool) :=
  match lunk, runk with
  | true, true => .ok (lt, true)
  | true, false => .ok (rt, false)
  | false, true => .ok (lt, false)
  | false, false => (unifyTypes lt rt).map (·, false)

def unifyValuesCol (lt : ColumnType) (lunk : Bool) (rt : ColumnType) (runk : Bool) :
    Except ValueError (ColumnType × Bool) :=
  unifyCol lt lunk rt runk

def outputType (c : ColumnType × Bool) : ColumnType := if c.2 then .text else c.1

/-- One column of VALUES, with the type of each cell and whether it is a bare literal. -/
def analyzeValuesColumn (cells : List (ColumnType × Bool)) : Except ValueError ColumnType :=
  outputType <$> cells.foldlM (fun c e => unifyValuesCol c.1 c.2 e.1 e.2) (.text, true)

/-- One column of a chain of set operations, from the first operand on. -/
def resolveChainColumn (first : ColumnType × Bool) (operands : List (ColumnType × Bool)) :
    Except ValueError ColumnType :=
  outputType <$> operands.foldlM (fun c e => unifyCol c.1 c.2 e.1 e.2) first

/-! ## The numeric tower -/

/-- Integers and numerics lie below the unconstrained numeric, and every number below
double precision. -/
def Below (a b : ColumnType) : Prop :=
  a = b ∨ (a = .int4 ∧ b = .int8) ∨
    (isNumber a = true ∧ (b = .float8 ∨ a ≠ .float8 ∧ b = .numeric none))

/-- Either only numbers, or no double precision. -/
def Allowed (float : Bool) (t : ColumnType) : Prop :=
  if float then isNumber t = true else t ≠ .float8

theorem below_refl (a : ColumnType) : Below a a := .inl rfl

theorem below_antisymm (a b : ColumnType) (hab : Below a b) (hba : Below b a) : a = b := by
  cases a <;> cases b <;> simp_all [Below, isNumber, ColumnType.isNumeric]
  grind

theorem below_float8 {a : ColumnType} (h : isNumber a = true) : Below a .float8 :=
  .inr (.inr ⟨h, .inl rfl⟩)

theorem float8_below {u : ColumnType} : Below .float8 u ↔ u = .float8 := by
  simp [Below, isNumber, eq_comm]

/-- A type that is not a number is below itself only. -/
theorem eq_of_below {a u : ColumnType} (h : isNumber a = false) (hu : Below a u) : u = a := by
  obtain rfl | ⟨rfl, -⟩ | ⟨hnum, -⟩ := hu
  · rfl
  · cases h
  · rw [h] at hnum
    cases hnum

theorem isNumber_of_below {a u : ColumnType} (h : isNumber a = true) (hu : Below a u) :
    isNumber u = true := by
  obtain rfl | ⟨-, rfl⟩ | ⟨-, rfl | ⟨-, rfl⟩⟩ := hu
  · exact h
  all_goals rfl

/-! ## Least upper bounds -/

def Upper (s : Set ColumnType) (u : ColumnType) : Prop := ∀ t ∈ s, Below t u

/-- The result of a fold over branches of the types `s`: no type yet, the least upper bound,
or a failure when there is no upper bound. -/
def Resolves (s : Set ColumnType) : Option (Option ColumnType) → Prop
  | some none => s = ∅
  | some (some a) => s.Nonempty ∧ ∀ u, Upper s u ↔ Below a u
  | none => ∀ u, ¬ Upper s u

theorem Resolves.unique {s : Set ColumnType} {x y : Option (Option ColumnType)}
    (hx : Resolves s x) (hy : Resolves s y) : x = y := by
  obtain _ | _ | a := x <;> obtain _ | _ | b := y <;> simp only [Resolves] at hx hy
  any_goals rfl
  · exact absurd (fun t ht => by simp [hy] at ht) (hx .text)
  · exact absurd ((hy.2 b).mpr (below_refl b)) (hx b)
  · exact absurd (fun t ht => by simp [hx] at ht) (hy .text)
  · exact absurd hx hy.1.ne_empty
  · exact absurd ((hx.2 a).mpr (below_refl a)) (hy a)
  · exact absurd hy hx.1.ne_empty
  · have hab : Below a b := (hx.2 b).mp ((hy.2 b).mpr (below_refl b))
    have hba : Below b a := (hy.2 a).mp ((hx.2 a).mpr (below_refl a))
    rw [below_antisymm a b hab hba]

/-- Among the allowed types, `unifyTypes` is the least upper bound of two. -/
theorem resolves_unifyTypes {float : Bool} {a b : ColumnType} (ha : Allowed float a)
    (hb : Allowed float b) : Resolves {a, b} ((unifyTypes a b).toOption.map some) := by
  unfold unifyTypes
  split_ifs with heq hint hfloat hnum
  · subst heq
    simp [Resolves, Upper, Except.toOption]
  · refine ⟨⟨a, by simp⟩, fun u => ?_⟩
    obtain ⟨rfl, rfl⟩ | ⟨rfl, rfl⟩ := hint <;> simp [Upper, Below, isNumber] <;> grind
  · have hnumbers : isNumber a = true ∧ isNumber b = true := by
      cases float <;> simp_all [Allowed]
    refine ⟨⟨a, by simp⟩, fun u => ?_⟩
    obtain rfl | rfl := hfloat <;> simp only [Upper, Set.mem_insert_iff, Set.mem_singleton_iff,
      forall_eq_or_imp, forall_eq, float8_below, and_iff_left_iff_imp, and_iff_right_iff_imp]
    · rintro rfl
      exact below_float8 hnumbers.2
    · rintro rfl
      exact below_float8 hnumbers.1
  · refine ⟨⟨a, by simp⟩, fun u => ?_⟩
    cases a <;> cases b <;> simp_all [Upper, Below, isNumber, ColumnType.isNumeric] <;> grind
  · intro u hu
    have hau : Below a u := hu a (by simp)
    have hbu : Below b u := hu b (by simp)
    cases hna : isNumber a <;> cases hnb : isNumber b
    · exact heq ((eq_of_below hna hau).symm.trans (eq_of_below hnb hbu))
    · rw [eq_of_below hna hau] at hbu
      simp [isNumber_of_below hnb hbu] at hna
    · rw [eq_of_below hnb hbu] at hau
      simp [isNumber_of_below hna hau] at hnb
    · simp [hna, hnb] at hnum

theorem allowed_unifyTypes {float : Bool} {a b c : ColumnType} (ha : Allowed float a)
    (hb : Allowed float b) (hc : unifyTypes a b = .ok c) : Allowed float c := by
  unfold unifyTypes at hc
  split_ifs at hc with heq hint hfloat hnum <;> cases hc
  · exact ha
  · cases float <;> simp [Allowed, isNumber]
  · cases float <;> simp_all [Allowed, isNumber]
  · cases float <;> simp [Allowed, isNumber, ColumnType.isNumeric]

/-! ## Folds -/

/-- A branch without a type leaves the other. -/
def unify : Option ColumnType → Option ColumnType → Option (Option ColumnType)
  | none, y => some y
  | x, none => some x
  | some a, some b => (unifyTypes a b).toOption.map some

/-- The types a branch brings; one whose type cannot be inferred brings types that never
match. -/
def brings : Option (Option ColumnType) → Set ColumnType
  | some none => ∅
  | some (some t) => {t}
  | none => {.bool, .text}

def unifyAll (acc : Option ColumnType) (branches : List (Option (Option ColumnType))) :
    Option (Option ColumnType) :=
  branches.foldlM (fun acc b => b.bind (unify acc)) acc

theorem upper_union {s t : Set ColumnType} {u : ColumnType} :
    Upper (s ∪ t) u ↔ Upper s u ∧ Upper t u := by
  simp only [Upper, Set.mem_union, or_imp, forall_and]

variable {float : Bool} {acc : Option ColumnType} {s : Set ColumnType}

theorem resolves_step (b : Option (Option ColumnType)) (hs : Resolves s (some acc))
    (hacc : ∀ t, acc = some t → Allowed float t) (hb : ∀ t, b = some (some t) → Allowed float t) :
    Resolves (s ∪ brings b) (b.bind (unify acc)) ∧
      ∀ t, b.bind (unify acc) = some (some t) → Allowed float t := by
  obtain _ | _ | t := b
  · refine ⟨fun u hu => ?_, nofun⟩
    have hbool := eq_of_below rfl (hu .bool (by simp [brings]))
    have htext := eq_of_below rfl (hu .text (by simp [brings]))
    rw [hbool] at htext
    cases htext
  · have hsame : (some none).bind (unify acc) = some acc := by cases acc <;> rfl
    rw [hsame, brings, Set.union_empty]
    exact ⟨hs, fun t ht => hacc t (Option.some.inj ht)⟩
  · cases acc with
    | none =>
      have hs : s = ∅ := hs
      simpa [brings, unify, hs, Resolves, Upper] using hb
    | some a =>
      have hpair := resolves_unifyTypes (hacc a rfl) (hb t rfl)
      have hupper : ∀ u, Upper {a, t} u ↔ Upper (s ∪ {t}) u := fun u => by
        rw [upper_union, hs.2 u]
        simp [Upper]
      simp only [brings, Option.bind_some, unify]
      cases hu : unifyTypes a t with
      | error e =>
        rw [hu] at hpair
        exact ⟨fun u hu => hpair u ((hupper u).mpr hu), nofun⟩
      | ok c =>
        rw [hu] at hpair
        refine ⟨⟨hs.1.inl, fun u => (hupper u).symm.trans (hpair.2 u)⟩, ?_⟩
        rintro _ ⟨⟩
        exact allowed_unifyTypes (hacc a rfl) (hb t rfl) hu

theorem resolves_unifyAll (branches : List (Option (Option ColumnType)))
    (hs : Resolves s (some acc)) (hacc : ∀ t, acc = some t → Allowed float t)
    (h : ∀ t, some (some t) ∈ branches → Allowed float t) :
    Resolves (s ∪ {t | ∃ b ∈ branches, t ∈ brings b}) (unifyAll acc branches) := by
  induction branches generalizing acc s with
  | nil => simpa [unifyAll] using hs
  | cons b branches ih =>
    obtain ⟨hstep, hout⟩ := resolves_step b hs hacc fun t ht => h t (ht ▸ mem_cons_self)
    have hset : s ∪ {t | ∃ b' ∈ b :: branches, t ∈ brings b'} =
        s ∪ brings b ∪ {t | ∃ b ∈ branches, t ∈ brings b} := by
      ext t
      simp only [mem_cons, Set.mem_union, Set.mem_ofPred_eq, exists_eq_or_imp, or_assoc]
    rw [hset, unifyAll, foldlM_cons]
    cases hb : b.bind (unify acc) with
    | none =>
      rw [hb] at hstep
      exact fun u hu => hstep u (upper_union.mp hu).1
    | some acc' =>
      rw [hb] at hstep hout
      exact ih hstep (fun t ht => hout t (congrArg some ht))
        fun t ht => h t (mem_cons_of_mem _ ht)

/-- The order of the branches does not matter. -/
theorem unifyAll_perm (float : Bool) {bs bs' : List (Option (Option ColumnType))} (hperm : bs.Perm bs')
    (h : ∀ t, some (some t) ∈ bs → Allowed float t) : unifyAll none bs = unifyAll none bs' := by
  have hnone : Resolves ∅ (some none) := rfl
  have hx := resolves_unifyAll bs hnone nofun h
  have hy := resolves_unifyAll bs' hnone nofun fun t ht => h t (hperm.mem_iff.mpr ht)
  simp only [← hperm.mem_iff] at hy
  exact hx.unique hy

/-! ## The folds of the source -/

/-- What a branch of a CASE brings. -/
def branch : Bool × Except ValueError ColumnType → Option (Option ColumnType)
  | (true, _) => some none
  | (false, t) => t.toOption.map some

/-- What a column with its mark of a bare literal brings. -/
def known (c : ColumnType × Bool) : Option ColumnType := if c.2 then none else some c.1

theorem unifyBranches_eq (branches : List (Bool × Except ValueError ColumnType))
    (acc : Option ColumnType) : (unifyBranches branches acc).toOption =
      (unifyAll acc (branches.map branch)).map (·.getD .text) := by
  induction branches generalizing acc with
  | nil => rfl
  | cons b branches ih =>
    obtain ⟨null, t⟩ := b
    cases null with
    | true => cases acc <;> exact ih _
    | false =>
      cases t with
      | error e => rfl
      | ok t =>
        cases acc with
        | none => exact ih (some t)
        | some a =>
          simp only [unifyBranches, unifyAll, map_cons, foldlM_cons, branch, unify,
            Except.toOption, Option.map_some, Option.bind_some, bind, Except.bind]
          cases unifyTypes a t with
          | error e => rfl
          | ok u => exact ih (some u)

theorem foldlM_unifyCol (cells : List (ColumnType × Bool)) (c : ColumnType × Bool) :
    (outputType <$> cells.foldlM (fun c e => unifyCol c.1 c.2 e.1 e.2) c).toOption =
      (unifyAll (known c) (cells.map (some ∘ known))).map (·.getD .text) := by
  induction cells generalizing c with
  | nil =>
    cases h : c.2 <;>
      simp [unifyAll, outputType, known, h, Except.toOption, pure, Except.pure]
  | cons e cells ih =>
    obtain ⟨lt, lunk⟩ := c
    obtain ⟨rt, runk⟩ := e
    cases lunk <;> cases runk
    · simp only [unifyAll, map_cons, foldlM_cons, Function.comp_apply, known, unify,
        unifyCol, Bool.false_eq_true, if_false, Option.bind_some]
      cases unifyTypes lt rt with
      | error e => rfl
      | ok t => exact ih (t, false)
    all_goals exact ih _

end Crabgresql.Executor
