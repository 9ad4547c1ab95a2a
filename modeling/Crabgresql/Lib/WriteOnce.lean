import Mathlib

/-!
# Write-once registers

A register that takes every write until it holds a terminal value and ignores
every write after that. It ends with the first terminal value written.
-/

namespace WriteOnce

open List

variable {α : Type*} (terminal : α → Bool)

def write (cur : Option α) (v : α) : Option α := if cur.any terminal then cur else some v

def writes (cur : Option α) (vs : List α) : Option α := vs.foldl (write terminal) cur

variable {terminal}

theorem writes_append (cur : Option α) (vs ws : List α) :
    writes terminal (writes terminal cur vs) ws = writes terminal cur (vs ++ ws) :=
  foldl_append.symm

theorem writes_of_terminal {cur : Option α} (h : cur.any terminal = true) (vs : List α) :
    writes terminal cur vs = cur := by
  induction vs with
  | nil => rfl
  | cons v vs ih =>
    rw [writes, foldl_cons, write, if_pos h]
    exact ih

/-- An undecided register ends terminal exactly with the first terminal value written. -/
theorem writes_eq_some_iff {cur : Option α} (h : cur.any terminal = false) {vs : List α} {v : α}
    (hv : terminal v = true) : writes terminal cur vs = some v ↔ vs.find? terminal = some v := by
  induction vs generalizing cur with
  | nil =>
    rw [find?_nil, writes, foldl_nil]
    constructor
    · rintro rfl
      rw [Option.any_some, hv] at h
      cases h
    · exact nofun
  | cons w vs ih =>
    rw [writes, foldl_cons, write, h, if_neg Bool.false_ne_true]
    by_cases hw : terminal w = true
    · have hcur : (some w).any terminal = true := hw
      rw [find?_cons_of_pos hw, ← writes, writes_of_terminal hcur]
    · rw [find?_cons_of_neg hw]
      exact ih (Bool.eq_false_iff.mpr hw)

end WriteOnce
