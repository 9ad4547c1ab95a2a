import Mathlib

/-!
# Decimal texts

A fraction of a fixed width is written with its trailing zeros trimmed. Reading takes a sign, the
digits before a point and the digits after it.
-/

namespace Decimals

open List Nat

/-- The value of the digits after the point. -/
def fraction (ds : List Char) : ℚ := ofDigitChars 10 ds 0 / 10 ^ ds.length

def readUnsigned (s : List Char) : Option ℚ :=
  let whole := s.takeWhile (· ≠ '.')
  let frac := (s.dropWhile (· ≠ '.')).tail
  if whole ≠ [] ∧ (whole ++ frac).all Char.isDigit then
    some (ofDigitChars 10 whole 0 + fraction frac)
  else none

def readText : List Char → Option ℚ
  | '-' :: s => (readUnsigned s).map (-·)
  | s => readUnsigned s

def intStr (n : ℤ) : List Char :=
  if n < 0 then '-' :: toDigits 10 n.natAbs else toDigits 10 n.natAbs

/-- The digits of `n` filled up to a width, without the zeros at the end. -/
def trimmed (width n : ℕ) : List Char :=
  (replicate (width - (toDigits 10 n).length) '0' ++ toDigits 10 n).rdropWhile (· = '0')

theorem fraction_rdropWhile (ds : List Char) : fraction (ds.rdropWhile (· = '0')) = fraction ds := by
  induction ds using reverseRecOn with
  | nil => rfl
  | append_singleton ds c ih =>
    rw [rdropWhile_concat]
    split_ifs with hc
    · rw [ih, of_decide_eq_true hc]
      simp [fraction, ofDigitChars_append, ofDigitChars_cons, pow_succ]
      field_simp
    · rfl

variable {n : ℕ} {rest : List Char}

theorem fraction_trimmed {width : ℕ} (h : n < 10 ^ width) (hw : 0 < width) :
    fraction (trimmed width n) = n / 10 ^ width := by
  have hlen := (length_toDigits_le_iff (by norm_num) hw).mpr h
  rw [trimmed, fraction_rdropWhile, fraction, ofDigitChars_append, ofDigitChars_replicate_zero,
    mul_zero, ofDigitChars_toDigits (by norm_num) le_rfl, length_append, length_replicate,
    Nat.sub_add_cancel hlen]

theorem isDigit_of_mem_trimmed {width : ℕ} {c : Char} (h : c ∈ trimmed width n) : c.isDigit := by
  rcases mem_append.mp (( rdropWhile_prefix _ _).subset h) with h | h
  · rw [eq_of_mem_replicate h]
    rfl
  · exact isDigit_of_mem_toDigits (by norm_num) le_rfl h

theorem readUnsigned_append (hrest : rest.takeWhile (· ≠ '.') = [])
    (hdigits : ∀ c ∈ rest.tail, c.isDigit) :
    readUnsigned (toDigits 10 n ++ rest) = some (n + fraction rest.tail) := by
  have hpoint : ∀ c ∈ toDigits 10 n, decide (c ≠ '.') = true := by
    intro c hc
    rw [decide_eq_true_iff]
    rintro rfl
    exact absurd (isDigit_of_mem_toDigits (by norm_num) le_rfl hc) (by decide)
  have hdrop : rest.dropWhile (· ≠ '.') = rest := by
    cases rest with
    | nil => rfl
    | cons c rest =>
      by_cases hc : c = '.'
      · simp [hc]
      · simp [hc] at hrest
  rw [readUnsigned, takeWhile_append_of_pos hpoint, dropWhile_append_of_pos hpoint, hrest, hdrop,
    append_nil, if_pos, ofDigitChars_toDigits (by norm_num) le_rfl]
  refine ⟨toDigits_ne_nil, all_eq_true.mpr fun c hc => ?_⟩
  rcases mem_append.mp hc with hc | hc
  · exact isDigit_of_mem_toDigits (by norm_num) le_rfl hc
  · exact hdigits c hc

theorem read_unsigned :
    readText (toDigits 10 n ++ rest) = readUnsigned (toDigits 10 n ++ rest) := by
  unfold readText
  split
  · rename_i s hs
    cases hd : toDigits 10 n with
    | nil => exact absurd hd toDigits_ne_nil
    | cons c ds =>
      have hc := isDigit_of_mem_toDigits (by norm_num) le_rfl (hd ▸ mem_cons_self (a := c))
      rw [hd] at hs
      cases hs
      cases hc
  · rfl

theorem cast_natAbs_of_nonpos {x : ℤ} (h : x ≤ 0) : (x.natAbs : ℚ) = -x := by
  rw [cast_natAbs, abs_of_nonpos h, Int.cast_neg]

theorem cast_natAbs_of_nonneg {x : ℤ} (h : 0 ≤ x) : (x.natAbs : ℚ) = x := by
  rw [cast_natAbs, abs_of_nonneg h]

/-- A number and the rest of its text, which starts with a point unless it is empty. -/
theorem read_intStr_append (n : ℤ) (hrest : rest.takeWhile (· ≠ '.') = [])
    (hdigits : ∀ c ∈ rest.tail, c.isDigit) : readText (intStr n ++ rest) =
      some (if n < 0 then n - fraction rest.tail else n + fraction rest.tail) := by
  unfold intStr
  split_ifs with hn
  · rw [cons_append, readText, readUnsigned_append hrest hdigits, Option.map_some,
      cast_natAbs_of_nonpos hn.le]
    congr 1
    ring
  · rw [read_unsigned, readUnsigned_append hrest hdigits, cast_natAbs_of_nonneg (not_lt.mp hn)]

theorem read_intStr (n : ℤ) : readText (intStr n) = some (n : ℚ) := by
  have h : readText (intStr n ++ []) = _ := read_intStr_append n rfl (by simp)
  simpa [fraction] using h

/-- The first digits of a number. -/
theorem ofDigitChars_take (n c : ℕ) (hc : c ≤ (toDigits 10 n).length) :
    ofDigitChars 10 ((toDigits 10 n).take c) 0 = n / 10 ^ ((toDigits 10 n).length - c) := by
  induction n using Nat.strong_induction_on with
  | h n ih =>
    rcases hc.eq_or_lt with rfl | hlt
    · simp [ofDigitChars_toDigits]
    · by_cases hn : n < 10
      · obtain rfl : c = 0 := by
          simpa [toDigits_of_lt_base hn] using hlt
        simp [toDigits_of_lt_base hn, Nat.div_eq_of_lt hn]
      · rw [toDigits_of_base_le (by norm_num) (not_lt.mp hn), length_append, length_singleton]
          at hlt ⊢
        have hle : c ≤ (toDigits 10 (n / 10)).length := by omega
        rw [take_append_of_le_length hle, ih _ (by omega) hle, Nat.div_div_eq_div_mul, ← pow_succ',
          Nat.sub_add_comm hle]

/-- The first digits of a number, filled up with zeros. -/
theorem ofDigitChars_lead (n c : ℕ) : ofDigitChars 10 ((toDigits 10 n).take c ++
      replicate (c - ((toDigits 10 n).take c).length) '0') 0 =
      ⌊(n : ℚ) * 10 ^ ((c : ℤ) - (toDigits 10 n).length)⌋₊ := by
  rw [ofDigitChars_append, ofDigitChars_replicate_zero, length_take]
  generalize hL : (toDigits 10 n).length = len
  rcases le_total c len with hle | hle
  · obtain ⟨k, rfl⟩ := Nat.exists_eq_add_of_le hle
    have hdiv : (n : ℚ) * 10 ^ ((c : ℤ) - (c + k : ℕ)) = n / (10 ^ k : ℕ) := by
      simp [div_eq_mul_inv]
    rw [hdiv, floor_div_natCast, floor_natCast, ofDigitChars_take n c (hL ▸ hle), hL]
    simp
  · obtain ⟨k, rfl⟩ := Nat.exists_eq_add_of_le hle
    have hmul : (n : ℚ) * 10 ^ ((len + k : ℕ) - (len : ℤ)) = (10 ^ k * n : ℕ) := by
      push_cast
      rw [add_sub_cancel_left, zpow_natCast, mul_comm]
    rw [hmul, floor_natCast, take_of_length_le (by omega), ofDigitChars_toDigits (by norm_num) le_rfl]
    simp

end Decimals
