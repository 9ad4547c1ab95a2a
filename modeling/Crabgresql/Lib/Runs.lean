import Mathlib

/-!
# Finite runs of a partial step function

A system is a step function that refuses an action by returning `none`; a run
executes a list of actions. `Along` records that every step of a run meets a
side condition on the state before it and the action taken. The invariant rule
is the only induction on runs that the developments below need.
-/

namespace Runs

variable {σ α : Type*} {step : σ → α → Option σ}

def exec (step : σ → α → Option σ) : σ → List α → Option σ
  | s, [] => some s
  | s, a :: as => (step s a).bind fun s' => exec step s' as

/-- The side condition `ok` holds before every step of the run. -/
def Along (step : σ → α → Option σ) (ok : σ → α → Prop) : σ → List α → Prop
  | _, [] => True
  | s, a :: as => ok s a ∧ ∀ s', step s a = some s' → Along step ok s' as

variable {s t : σ} {as : List α} {ok : σ → α → Prop}

theorem exec_cons {a : α} :
    exec step s (a :: as) = some t ↔ ∃ s', step s a = some s' ∧ exec step s' as = some t := by
  simp only [exec, Option.bind_eq_some_iff]

theorem exec_append {bs : List α} : exec step s (as ++ bs) = some t ↔
      ∃ s', exec step s as = some s' ∧ exec step s' bs = some t := by
  induction as generalizing s with
  | nil => simp [exec]
  | cons a as ih =>
    simp only [List.cons_append, exec_cons, ih]
    constructor
    · rintro ⟨u, hu, v, hv, hb⟩
      exact ⟨v, ⟨u, hu, hv⟩, hb⟩
    · rintro ⟨v, ⟨u, hu, hv⟩, hb⟩
      exact ⟨u, hu, v, hv, hb⟩

theorem along_append {s' : σ} {bs : List α}
    (h : Along step ok s (as ++ bs)) (he : exec step s as = some s') :
    Along step ok s as ∧ Along step ok s' bs := by
  induction as generalizing s with
  | nil =>
    cases he
    exact ⟨trivial, h⟩
  | cons a as ih =>
    obtain ⟨u, hu, hv⟩ := exec_cons.mp he
    have hrest := ih (h.2 u hu) hv
    refine ⟨⟨h.1, ?_⟩, hrest.2⟩
    intro u' hu'
    rw [hu] at hu'
    cases hu'
    exact hrest.1

theorem along_trivial (h : ∀ s a, ok s a) (s : σ) (as : List α) : Along step ok s as := by
  induction as generalizing s with
  | nil => trivial
  | cons a as ih => exact ⟨h s a, fun s' _ => ih s'⟩

instance {ok : σ → α → Prop} [∀ s a, Decidable (ok s a)] :
    ∀ (s : σ) (as : List α), Decidable (Along step ok s as)
  | _, [] => isTrue trivial
  | s, a :: as =>
    have (s' : σ) : Decidable (Along step ok s' as) := instDecidableAlong s' as
    inferInstanceAs (Decidable (ok s a ∧ ∀ s', step s a = some s' → Along step ok s' as))

/-- Evaluate a run and a side condition along it. -/
def check (step : σ → α → Option σ) (ok : σ → α → Bool) : σ → List α → Bool
  | _, [] => true
  | s, a :: as => ok s a && (step s a).all fun s' => check step ok s' as

theorem along_of_check (okb : σ → α → Bool) (h : ∀ s a, okb s a = true → ok s a)
    (hc : check step okb s as = true) : Along step ok s as := by
  induction as generalizing s with
  | nil => trivial
  | cons a as ih =>
    rw [check, Bool.and_eq_true, Option.all_eq_true] at hc
    exact ⟨h s a hc.1, fun s' hs' => ih (hc.2 s' hs')⟩

theorem along_imp {ok' : σ → α → Prop}
    (h : ∀ a ∈ as, ∀ s, ok s a → ok' s a) (ha : Along step ok s as) : Along step ok' s as := by
  induction as generalizing s with
  | nil => trivial
  | cons a as ih =>
    refine ⟨h a List.mem_cons_self s ha.1, fun s' hs' => ?_⟩
    exact ih (fun b hb => h b (List.mem_cons_of_mem a hb)) (ha.2 s' hs')

/-- A run that can be evaluated, with what can be decided of its end. -/
theorem exists_some {o : Option σ} {p : σ → Prop} [DecidablePred p]
    (h : decide (∃ s ∈ o, p s) = true) : ∃ s, o = some s ∧ p s := of_decide_eq_true h

/-- What one admitted step keeps, every admitted run keeps. -/
theorem exec_invariant {I : σ → Prop}
    (hstep : ∀ s a s', I s → ok s a → step s a = some s' → I s') (hs : I s) (hok : Along step ok s as)
    (h : exec step s as = some t) : I t := by
  induction as generalizing s with
  | nil =>
    cases h
    exact hs
  | cons a as ih =>
    obtain ⟨u, hu, hv⟩ := exec_cons.mp h
    exact ih (hstep s a u hs hok.1 hu) (hok.2 u hu) hv

/-- Two systems that can take every admitted action together can take every admitted run
together. -/
theorem exec_simulation {τ : Type*} {step' : τ → α → Option τ} {R : σ → τ → Prop}
    (hstep : ∀ s t a, R s t → ok s a →
      ∃ s' t', step s a = some s' ∧ step' t a = some t' ∧ R s' t') {t : τ} (hs : R s t) (hok : Along step ok s as) :
    ∃ s' t', exec step s as = some s' ∧ exec step' t as = some t' ∧ R s' t' := by
  induction as generalizing s t with
  | nil => exact ⟨s, t, rfl, rfl, hs⟩
  | cons a as ih =>
    obtain ⟨s₁, t₁, hs₁, ht₁, hR⟩ := hstep s t a hs hok.1
    obtain ⟨s', t', hs', ht', hR'⟩ := ih hR (hok.2 s₁ hs₁)
    exact ⟨s', t', exec_cons.mpr ⟨s₁, hs₁, hs'⟩, exec_cons.mpr ⟨t₁, ht₁, ht'⟩, hR'⟩

end Runs
