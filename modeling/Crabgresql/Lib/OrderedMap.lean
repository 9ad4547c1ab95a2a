import Mathlib

/-!
# Ordered maps

The last entry of an ordered map, and what a list of inserts or removals leaves
under a key.
-/

namespace OrderedMap

open List

open Std (ExtTreeMap TransOrd LawfulEqOrd)

variable {α β : Type*} [Ord α] [TransOrd α] [LawfulEqOrd α] {m : ExtTreeMap α β} {k : α} {v : β}

theorem getElem?_insert_eq (m : ExtTreeMap α β) (k a : α) (v : β) [DecidableEq α] :
    (m.insert k v)[a]? = if a = k then some v else m[a]? := by
  rw [ExtTreeMap.getElem?_insert]
  by_cases h : a = k
  · rw [if_pos h, if_pos (h ▸ Std.ReflCmp.compare_self)]
  · rw [if_neg h, if_neg fun heq => h (Std.LawfulEqCmp.eq_of_compare heq).symm]

theorem getElem?_erase_eq (m : ExtTreeMap α β) (k a : α) [DecidableEq α] :
    (m.erase k)[a]? = if a = k then none else m[a]? := by
  rw [ExtTreeMap.getElem?_erase]
  by_cases h : a = k
  · rw [if_pos h, if_pos (h ▸ Std.ReflCmp.compare_self)]
  · rw [if_neg h, if_neg fun heq => h (Std.LawfulEqCmp.eq_of_compare heq).symm]

def eraseAll (m : ExtTreeMap α β) (keys : List α) : ExtTreeMap α β :=
  keys.foldl (fun m k => m.erase k) m

theorem getElem?_eraseAll [DecidableEq α] (m : ExtTreeMap α β) (keys : List α) (a : α) :
    (eraseAll m keys)[a]? = if a ∈ keys then none else m[a]? := by
  induction keys generalizing m with
  | nil => rfl
  | cons k keys ih =>
    have hstep := ih (m.erase k)
    rw [getElem?_erase_eq] at hstep
    rw [eraseAll, foldl_cons]
    refine hstep.trans ?_
    by_cases hk : a = k
    · rw [if_pos hk, if_pos (mem_cons.mpr (.inl hk)), ite_self]
    · rw [if_neg hk]
      simp only [mem_cons, hk, false_or]

/-- Removing the keys that a scan finds. -/
theorem getElem?_eraseFilter [DecidableEq α] (m : ExtTreeMap α β) (q : α → Bool) (a : α) :
    (eraseAll m ((m.toList.filter fun e => q e.1).map Prod.fst))[a]? =
      if q a then none else m[a]? := by
  rw [getElem?_eraseAll]
  by_cases hq : q a = true
  · rw [if_pos hq]
    split_ifs with hmem
    · rfl
    · refine Option.eq_none_iff_forall_ne_some.mpr fun e he => hmem ?_
      have hin := ExtTreeMap.mem_toList_iff_getElem?_eq_some.mpr he
      exact List.mem_map.mpr ⟨(a, e), mem_filter.mpr ⟨hin, hq⟩, rfl⟩
  · rw [if_neg hq, if_neg]
    intro hmem
    obtain ⟨e, he, rfl⟩ := List.mem_map.mp hmem
    exact hq (mem_filter.mp he).2

/-- The last entry is the one with the greatest key. -/
theorem getLast?_eq_some_iff : m.toList.getLast? = some (k, v) ↔
    m[k]? = some v ∧ ∀ i e, m[i]? = some e → (compare i k).isLE = true := by
  have hsorted : m.toList.Pairwise fun a b => compare a.1 b.1 = .lt :=
    ExtTreeMap.ordered_keys_toList
  constructor
  · intro h
    refine ⟨ExtTreeMap.mem_toList_iff_getElem?_eq_some.mp (mem_of_getLast? h), ?_⟩
    intro i e he
    have hmem := ExtTreeMap.mem_toList_iff_getElem?_eq_some.mpr he
    obtain ⟨front, hfront⟩ := List.getLast?_eq_some_iff.mp h
    rw [hfront] at hmem hsorted
    rcases mem_append.mp hmem with hbefore | hlast
    · rw [(pairwise_append.mp hsorted).2.2 _ hbefore _ (mem_singleton_self _)]
      rfl
    · cases mem_singleton.mp hlast
      exact Std.ReflCmp.isLE_rfl
  · rintro ⟨hk, hmax⟩
    cases hlast : m.toList.getLast? with
    | none =>
      have hmem := ExtTreeMap.mem_toList_iff_getElem?_eq_some.mpr hk
      rw [List.getLast?_eq_none_iff.mp hlast] at hmem
      cases hmem
    | some p =>
      obtain ⟨i, e⟩ := p
      have hi := ExtTreeMap.mem_toList_iff_getElem?_eq_some.mp (mem_of_getLast? hlast)
      -- both keys are the greatest
      have hmem := ExtTreeMap.mem_toList_iff_getElem?_eq_some.mpr hk
      obtain ⟨front, hfront⟩ := List.getLast?_eq_some_iff.mp hlast
      rw [hfront] at hmem hsorted
      rcases mem_append.mp hmem with hbefore | hself
      · have hlt := (pairwise_append.mp hsorted).2.2 _ hbefore _ (mem_singleton_self _)
        have hle := hmax i e hi
        rw [Std.OrientedCmp.gt_iff_lt.mpr hlt] at hle
        cases hle
      · rw [mem_singleton.mp hself]

theorem getLast?_eq_none_iff : m.toList.getLast? = none ↔ ∀ i : α, m[i]? = none := by
  rw [List.getLast?_eq_none_iff]
  constructor
  · intro h i
    cases hi : m[i]? with
    | none => rfl
    | some =>
      have hmem := ExtTreeMap.mem_toList_iff_getElem?_eq_some.mpr hi
      rw [h] at hmem
      cases hmem
  · intro h
    refine eq_nil_iff_forall_not_mem.mpr fun p hp => ?_
    have hi := ExtTreeMap.mem_toList_iff_getElem?_eq_some.mp (show (p.1, p.2) ∈ m.toList from hp)
    rw [h] at hi
    cases hi

end OrderedMap
