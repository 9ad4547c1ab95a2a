import Crabgresql.Executor.Values

/-!
# Comparison, equality and hashing

Within one type `compare`, `==` and the hash look at the same key: the value of a numeric,
the estimated length of an interval, the bytes of a text. Byte strings have equality and a
hash and no comparison.
-/

namespace Crabgresql.Executor

open Pgtypes Std

/-- Trailing zeros are dropped, and zero has scale 0. -/
def normalized (d : BigDecimal) : BigDecimal :=
  if d.digits = 0 then ⟨0, 0⟩
  else
    let zeros := padicValNat 10 d.digits.natAbs
    ⟨d.digits / 10 ^ zeros, d.scale - zeros⟩

/-- What is fed to the hasher: the kind of the value, and with it the value or its
canonical form. -/
def hashed : Datum → Datum ⊕ ℤ
  | .float8 f => .inl (.float8 (canonicalBits f))
  | .numeric d => .inl (.numeric (normalized d))
  | .interval i => .inr (canonicalMicros i)
  | d => .inl d

/-! ## Decimals of one value -/

theorem decimalValue_eq (d : BigDecimal) : decimalValue d = d.digits * (10 : ℚ) ^ (-d.scale) := by
  rw [decimalValue]
  split_ifs with h
  · obtain ⟨n, hn⟩ := Int.eq_ofNat_of_zero_le h
    simp [hn, div_eq_mul_inv]
  · obtain ⟨n, hn⟩ := Int.eq_ofNat_of_zero_le (show 0 ≤ -d.scale by omega)
    simp [hn]

theorem padicValNat_shift {n : ℕ} (hn : n ≠ 0) (k : ℕ) :
    padicValNat 10 (n * 10 ^ k) = padicValNat 10 n + k := by
  induction k with
  | zero => simp
  | succ k ih =>
    rw [pow_succ', ← mul_assoc, mul_comm n, mul_assoc,
      padicValNat_base_mul (by omega) (by positivity), ih, Nat.add_assoc]

/-- Zeros appended after the point are dropped again. -/
theorem normalized_shift (digits scale : ℤ) (k : ℕ) :
    normalized ⟨digits * 10 ^ k, scale + k⟩ = normalized ⟨digits, scale⟩ := by
  by_cases hd : digits = 0
  · simp [normalized, hd]
  have hk : (digits * 10 ^ k).natAbs = digits.natAbs * 10 ^ k := by
    rw [Int.natAbs_mul, Int.natAbs_pow]
    rfl
  have hne : digits * 10 ^ k ≠ 0 := by positivity
  simp only [normalized, if_neg hd, if_neg hne, hk, padicValNat_shift (Int.natAbs_ne_zero.mpr hd)]
  rw [pow_add, Int.mul_ediv_mul_of_pos_left _ _ (by positivity)]
  congr 1
  push_cast
  omega

theorem normalized_congr {x y : BigDecimal} (h : decimalValue x = decimalValue y) :
    normalized x = normalized y := by
  wlog hle : x.scale ≤ y.scale generalizing x y
  · exact (this h.symm (by omega)).symm
  obtain ⟨k, hk⟩ := Int.eq_ofNat_of_zero_le (show 0 ≤ y.scale - x.scale by omega)
  have hscale : y.scale = x.scale + k := by omega
  have hdigits : y.digits = x.digits * 10 ^ k := by
    rw [decimalValue_eq, decimalValue_eq, hscale, neg_add, zpow_add₀ (by norm_num), ← mul_assoc,
      mul_right_comm, mul_left_inj' (by positivity), zpow_neg, ← div_eq_mul_inv,
      eq_div_iff (by positivity), zpow_natCast] at h
    exact_mod_cast h.symm
  obtain ⟨digits, scale⟩ := y
  cases hscale
  cases hdigits
  exact (normalized_shift x.digits x.scale k).symm

/-! ## The key of a type -/

theorem instant_inj {x y : DateTime} : Builtins.instant x = Builtins.instant y ↔ x = y := by
  refine ⟨fun h => ?_, fun h => h ▸ rfl⟩
  obtain ⟨⟨dx, hdx⟩, ⟨tx, htx⟩⟩ := x
  obtain ⟨⟨dy, hdy⟩, ⟨ty, hty⟩⟩ := y
  simp only [Builtins.instant] at h
  obtain rfl : dx = dy := by omega
  obtain rfl : tx = ty := by omega
  rfl

/-- The values of type `t` are the `mk x`; they are compared, and are equal, by the keys
of the `x`, and a key determines the hash. -/
structure Keyed (B : Builtins) (t : ColumnType) {α K : Type} [Ord K] (mk : α → Datum)
    (key : α → K) : Prop where
  exists_mk : ∀ {a}, columnType a = some t → ∃ x, a = mk x
  compare_mk : ∀ x y, B.compare (mk x) (mk y) = .ok (some (compare (key x) (key y)))
  same_mk : ∀ x y, same (mk x) (mk y) = true ↔ key x = key y
  hashed_mk : ∀ x y, key x = key y → hashed (mk x) = hashed (mk y)

variable {B : Builtins} {t : ColumnType} {a b c : Datum}

/-- A type whose values are their own canonical forms. -/
theorem Keyed.plain {α K : Type} [Ord K] (mk : α → Datum) (key : α → K)
    (hmk : ∀ {a}, columnType a = some t → ∃ x, a = mk x)
    (hcompare : ∀ x y, B.compare (mk x) (mk y) = .ok (some (compare (key x) (key y))))
    (hcanon : ∀ x, canon (mk x) = .inl (mk x)) (hinj : ∀ x y, mk x = mk y ↔ key x = key y) :
    Keyed B t mk key where
  exists_mk := hmk
  compare_mk := hcompare
  same_mk x y := by simp [same, hcanon, hinj]
  hashed_mk x y h := congrArg hashed ((hinj x y).mpr h)

/-- Values of type `t` have keys of a totally ordered type. -/
def Ranked (B : Builtins) (t : ColumnType) : Prop :=
  ∃ (α K : Type) (_ : Ord K) (_ : TransOrd K) (_ : LawfulEqOrd K) (mk : α → Datum) (key : α → K),
    Keyed B t mk key

theorem Keyed.ranked {α K : Type} [Ord K] [TransOrd K] [LawfulEqOrd K] (mk : α → Datum)
    (key : α → K) (h : Keyed B t mk key) : Ranked B t :=
  ⟨α, K, _, inferInstance, inferInstance, mk, key, h⟩

theorem ranked (hfloat : t ≠ .float8) (hbytea : t ≠ .bytea) (ha : columnType a = some t) :
    Ranked B t := by
  cases a
  case null => cases ha
  case float8 => exact absurd (Option.some.inj ha).symm hfloat
  case bytea => exact absurd (Option.some.inj ha).symm hbytea
  case' numeric =>
    refine Keyed.ranked .numeric decimalValue ⟨?_, fun _ _ => rfl,
      fun x y => by simp [same, canon], fun x y h => by simp [hashed, normalized_congr h]⟩
  case' interval =>
    refine Keyed.ranked .interval canonicalMicros ⟨?_, fun _ _ => rfl,
      fun x y => by simp [same, canon], fun x y h => by simp [hashed, h]⟩
  case' bool =>
    refine Keyed.ranked _ _ (.plain .bool id ?_ ?_ ?_ (by simp))
  case' text =>
    refine Keyed.ranked _ _ (.plain .text id ?_ ?_ ?_ (by simp))
  case' int4 =>
    refine Keyed.ranked _ _ (.plain .int4 Int32.toInt ?_ ?_ ?_ (by simp [Int32.toInt_inj]))
  case' int8 =>
    refine Keyed.ranked _ _ (.plain .int8 Int64.toInt ?_ ?_ ?_ (by simp [Int64.toInt_inj]))
  case' date =>
    refine Keyed.ranked _ _ (.plain .date Date.day ?_ ?_ ?_ (by rintro ⟨⟩ ⟨⟩; simp))
  case' time =>
    refine Keyed.ranked _ _ (.plain .time Time.nanos ?_ ?_ ?_ (by rintro ⟨⟩ ⟨⟩; simp))
  case' timestamptz =>
    refine Keyed.ranked _ _ (.plain .timestamptz Timestamp.nanos ?_ ?_ ?_ (by rintro ⟨⟩ ⟨⟩; simp))
  case' timestamp =>
    refine Keyed.ranked _ _ (.plain .timestamp Builtins.instant ?_ ?_ ?_ (by simp [instant_inj]))
  all_goals first
    | exact fun _ _ => rfl
    | exact fun _ => rfl
    | rintro ⟨⟩ h <;> cases ha <;> cases h
      exact ⟨_, rfl⟩

end Crabgresql.Executor
