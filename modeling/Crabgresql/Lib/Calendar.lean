import Mathlib

/-!
# The proleptic Gregorian calendar

Months are numbered from January of year 0 and days from 1970-01-01. Every day lies in
one month, from its start for as many days as the month has.
-/

namespace Calendar

def isLeap (y : ℤ) : Bool := y % 4 = 0 ∧ (y % 100 ≠ 0 ∨ y % 400 = 0)

def monthLength (k : ℤ) : ℤ :=
  if k % 12 = 1 then if isLeap (k / 12) then 29 else 28
  else if k % 12 ∈ [3, 5, 8, 10] then 30 else 31

/-- The first day of a month, by counting years from March. -/
def monthStart (k : ℤ) : ℤ :=
  let y := (k - 2) / 12
  365 * y + y / 4 - y / 100 + y / 400 + (153 * ((k - 2) % 12) + 2) / 5 - 719468

def monthOf (n : ℤ) : ℤ :=
  let k := 4800 * (n + 719468) / 146097 + 2
  if n < monthStart k then k - 1 else if monthStart (k + 1) ≤ n then k + 1 else k

variable {k l n : ℤ}

theorem monthLength_bounds (k : ℤ) : 28 ≤ monthLength k ∧ monthLength k ≤ 31 := by
  unfold monthLength
  split_ifs <;> omega

theorem monthStart_succ (k : ℤ) : monthStart (k + 1) = monthStart k + monthLength k := by
  obtain ⟨y, j, hj, rfl⟩ : ∃ y j : ℤ, (0 ≤ j ∧ j < 12) ∧ k = 12 * y + j :=
    ⟨k / 12, k % 12, by omega, by omega⟩
  have hy : (12 * y + j) / 12 = y := by omega
  have hm : (12 * y + j) % 12 = j := by omega
  obtain ⟨h0, h12⟩ := hj
  simp only [monthLength, isLeap, monthStart, hy, hm]
  interval_cases j <;> simp <;> omega

theorem monthOf_spec (n : ℤ) : monthStart (monthOf n) ≤ n ∧ n < monthStart (monthOf n + 1) := by
  simp only [monthOf]
  split_ifs with h h'
  · refine ⟨?_, by simpa using h⟩
    simp only [monthStart] at *
    omega
  · refine ⟨h', ?_⟩
    simp only [monthStart] at *
    omega
  · exact ⟨not_lt.mp h, not_le.mp h'⟩

theorem monthStart_strictMono : StrictMono monthStart :=
  strictMono_int_of_lt_succ fun k => by
    have := monthLength_bounds k
    rw [monthStart_succ]
    omega

theorem monthOf_mono : Monotone monthOf := by
  intro m n hmn
  have h := (monthOf_spec m).1.trans_lt (hmn.trans_lt (monthOf_spec n).2)
  exact Int.lt_add_one_iff.mp (monthStart_strictMono.lt_iff_lt.mp h)

theorem monthOf_eq (h : monthStart k ≤ n) (h' : n < monthStart k + monthLength k) :
    monthOf n = k := by
  obtain ⟨hle, hlt⟩ := monthOf_spec n
  rw [← monthStart_succ] at h'
  have h₁ := monthStart_strictMono.lt_iff_lt.mp (hle.trans_lt h')
  have h₂ := monthStart_strictMono.lt_iff_lt.mp (h.trans_lt hlt)
  omega

end Calendar
