import Mathlib

/-!
# Chains in a graph with one successor

A partial function as a graph in which every node has at most one edge out. Such a graph without
cycles stays without cycles when an edge is added whose head does not lead back to its tail. In a
finite one every chain ends, and a walk that remembers where it has been decides reachability.
-/

namespace Chains

open Function

open Relation (TransGen ReflTransGen)

variable {α : Type*}

def Edge (next : α → Option α) (a b : α) : Prop := next a = some b

/-- `b` is on the chain that starts at `a`. -/
def Leads (next : α → Option α) : α → α → Prop := ReflTransGen (Edge next)

def Acyclic (next : α → Option α) : Prop := ∀ a, ¬TransGen (Edge next) a a

variable {next next' : α → Option α}

theorem acyclic_none : Acyclic fun _ : α => none := by
  intro a h
  obtain ⟨b, hb, -⟩ := TransGen.head'_iff.mp h
  cases hb

theorem Acyclic.mono (h : Acyclic next) (hsub : ∀ a b, next' a = some b → next a = some b) :
    Acyclic next' :=
  fun a ha => h a (TransGen.mono (fun a b => hsub a b) a a ha)

theorem leads_none {a b : α} (ha : next a = none) (h : Leads next a b) : b = a := by
  obtain rfl | ⟨c, hc, -⟩ := ReflTransGen.cases_head h
  · rfl
  · rw [Edge, ha] at hc
    cases hc

theorem leads_some {a b c : α} (ha : next a = some b) (h : Leads next a c) :
    c = a ∨ Leads next b c := by
  obtain rfl | ⟨d, hd, hrest⟩ := ReflTransGen.cases_head h
  · exact .inl rfl
  · rw [Edge, ha] at hd
    cases hd
    exact .inr hrest

section

variable [DecidableEq α] {x t : α}

/-- A chain after the edge of `x` was replaced: either it never takes the new edge, or it comes to
`x` and its end lies on the chain from the edge's head. -/
theorem leads_update {a b : α} (h : Leads (Function.update next x (some t)) a b) :
    Leads next a b ∨ Leads next t b ∧ Leads (Function.update next x (some t)) a x := by
  induction h with
  | refl => exact .inl .refl
  | @tail b c hab hbc ih =>
    by_cases hb : b = x
    · subst hb
      rw [Edge, update_self] at hbc
      cases hbc
      exact .inr ⟨.refl, hab⟩
    · rw [Edge, update_of_ne hb] at hbc
      exact ih.imp (·.tail hbc) (And.imp_left (·.tail hbc))

theorem not_leads_update (hx : ¬Leads next t x) {a : α} (ha : ¬Leads next a x) :
    ¬Leads (Function.update next x (some t)) a x := by
  intro h
  obtain h | ⟨h, -⟩ := leads_update h
  · exact ha h
  · exact hx h

theorem Acyclic.update (h : Acyclic next) (hx : ¬Leads next t x) :
    Acyclic (Function.update next x (some t)) := by
  intro a ha
  obtain ⟨b, hab, hba⟩ := TransGen.head'_iff.mp ha
  by_cases hax : a = x
  · subst hax
    rw [Edge, update_self] at hab
    cases hab
    exact not_leads_update hx hx hba
  · rw [Edge, update_of_ne hax] at hab
    obtain hba | ⟨hta, hbx⟩ := leads_update hba
    · exact h a (.head' hab hba)
    · -- the cycle takes the new edge: `t` leads to `a`, and `a` to `x`
      have hb : ¬Leads next b x := fun hb => hx (hta.trans (.head hab hb))
      exact not_leads_update hx hb hbx

end

/-- In a finite graph without cycles every chain ends. -/
theorem Acyclic.ends (h : Acyclic next) (hfin : {a | next a ≠ none}.Finite) (a : α) :
    ∃ b, Leads next a b ∧ next b = none := by
  let r : {a | next a ≠ none} → {a | next a ≠ none} → Prop :=
    fun b a => TransGen (Edge next) a.1 b.1
  have : IsTrans _ r := ⟨fun _ _ _ hab hbc => hbc.trans hab⟩
  have : Std.Irrefl r := ⟨fun a => h a.1⟩
  have : Finite {a | next a ≠ none} := hfin
  have hwf : WellFounded r := Finite.wellFounded_of_trans_of_irrefl r
  have hnode : ∀ a : {a | next a ≠ none}, ∃ b, Leads next a.1 b ∧ next b = none := by
    intro a
    induction a using hwf.induction with
    | _ a ih =>
      obtain ⟨b, hb⟩ := Option.ne_none_iff_exists'.mp a.2
      by_cases hend : next b = none
      · exact ⟨b, .single hb, hend⟩
      · obtain ⟨c, hbc, hc⟩ := ih ⟨b, hend⟩ (.single hb)
        exact ⟨c, .head hb hbc, hc⟩
  by_cases hend : next a = none
  · exact ⟨a, .refl, hend⟩
  · exact hnode ⟨a, hend⟩

end Chains
