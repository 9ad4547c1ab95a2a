import Mathlib

/-!
# Exclusive reservations

Holders claim keys and hand their claims over to a list of recorded groups. No
key is in two groups, in two claims, or in a claim and a group, as long as a
claim grows by unused keys only.
-/

namespace Reserve

open List

variable {ι κ : Type*}

structure Exclusive (groups : List (List κ)) (claims : ι → List κ) : Prop where
  apart : groups.Pairwise List.Disjoint
  free : ∀ i, ∀ g ∈ groups, (claims i).Disjoint g
  sole : ∀ i j, i ≠ j → (claims i).Disjoint (claims j)

def Used (groups : List (List κ)) (claims : ι → List κ) (k : κ) : Prop :=
  (∃ g ∈ groups, k ∈ g) ∨ ∃ i, k ∈ claims i

variable {groups groups' : List (List κ)} {claims claims' : ι → List κ}

theorem exclusive_nil (h : ∀ i, claims i = []) : Exclusive [] claims where
  apart := .nil
  free i g hg := by cases hg
  sole i j _ := by
    rw [h i]
    exact disjoint_nil_left _

theorem Used.mono (hg : ∀ g ∈ groups', ∀ k ∈ g, Used groups claims k)
    (hc : ∀ i, ∀ k ∈ claims' i, Used groups claims k) {k : κ} (h : Used groups' claims' k) :
    Used groups claims k := by
  rcases h with ⟨g, hmem, hk⟩ | ⟨i, hk⟩
  · exact hg g hmem k hk
  · exact hc i k hk

theorem pairwise_disjoint_of_subperm (h : groups.Pairwise List.Disjoint)
    (hsub : groups'.Subperm groups) : groups'.Pairwise List.Disjoint := by
  obtain ⟨l, hperm, hsub⟩ := hsub
  exact hperm.pairwise (h.sublist hsub) fun hd => hd.symm

/-- Groups and claims may be given up. -/
theorem Exclusive.shrink (h : Exclusive groups claims) (hg : groups'.Subperm groups)
    (hc : ∀ i, claims' i ⊆ claims i) : Exclusive groups' claims' where
  apart := pairwise_disjoint_of_subperm h.apart hg
  free i g hmem _ hk := h.free i g (hg.subset hmem) (hc i hk)
  sole i j hij _ hk hk' := h.sole i j hij (hc i hk) (hc j hk')

theorem Exclusive.nil_cons (h : Exclusive groups claims) : Exclusive ([] :: groups) claims where
  apart := pairwise_cons.mpr ⟨fun g _ => disjoint_nil_left g, h.apart⟩
  free i g hmem := by
    rcases mem_cons.mp hmem with rfl | hmem
    · exact disjoint_nil_right _
    · exact h.free i g hmem
  sole := h.sole

/-- A holder hands its claim over. -/
theorem Exclusive.hand (h : Exclusive groups claims) (i : ι)
    (hg : groups'.Subperm (claims i :: groups)) (hown : claims' i = [])
    (hc : ∀ j, j ≠ i → claims' j ⊆ claims j) : Exclusive groups' claims' where
  apart := by
    refine pairwise_disjoint_of_subperm ?_ hg
    exact pairwise_cons.mpr ⟨fun g hmem => h.free i g hmem, h.apart⟩
  free j g hmem k hk := by
    by_cases hij : j = i
    · rw [hij, hown] at hk
      cases hk
    · rcases mem_cons.mp (hg.subset hmem) with rfl | hmem
      · exact h.sole j i hij (hc j hij hk)
      · exact h.free j g hmem (hc j hij hk)
  sole j j' hne k hk hk' := by
    by_cases hj : j = i
    · rw [hj, hown] at hk
      cases hk
    · by_cases hj' : j' = i
      · rw [hj', hown] at hk'
        cases hk'
      · exact h.sole j j' hne (hc j hj hk) (hc j' hj' hk')

/-- A holder claims unused keys. -/
theorem Exclusive.claim (h : Exclusive groups claims) (i : ι)
    (hnew : ∀ k ∈ claims' i, ¬ Used groups claims k)
    (hc : ∀ j, j ≠ i → claims' j ⊆ claims j) : Exclusive groups claims' where
  apart := h.apart
  free j g hmem k hk hkg := by
    by_cases hij : j = i
    · subst hij
      exact hnew k hk (.inl ⟨g, hmem, hkg⟩)
    · exact h.free j g hmem (hc j hij hk) hkg
  sole j j' hne k hk hk' := by
    by_cases hj : j = i
    · subst hj
      exact hnew k hk (.inr ⟨j', hc j' hne.symm hk'⟩)
    · by_cases hj' : j' = i
      · subst hj'
        exact hnew k hk' (.inr ⟨j, hc j hne hk⟩)
      · exact h.sole j j' hne (hc j hj hk) (hc j' hj' hk')

end Reserve
