import Crabgresql.Lib.Decimals
import Crabgresql.Executor.Aggregate
import Crabgresql.Executor.Order

/-!
# Numeric arithmetic

Addition, multiplication and the remainder are exact; division rounds the quotient twice, to
the digits that are computed and to the digits that are shown. No operation but the reading of
a text looks at the limits of the format.
-/

namespace Crabgresql.Executor.Numeric

open Pgtypes Decimals List Int

def maxWeight : ℕ := 131071

def maxDscale : ℤ := 16383

/-- The digits of the mantissa, without its sign. -/
def mantissa (d : BigDecimal) : List Char := Nat.toDigits 10 d.digits.natAbs

def isZero (d : BigDecimal) : Bool := mantissa d == ['0']

def withinFormatLimits (d : BigDecimal) : Bool :=
  decide (d.scale ≤ maxDscale) && decide ((mantissa d).length - 1 - d.scale ≤ maxWeight)

/-- Half away from zero. -/
def halfUp (x : ℚ) : ℤ := if x < 0 then -round (-x) else round x

def down (x : ℚ) : ℤ := if x < 0 then ⌈x⌉ else ⌊x⌋

def withScaleRound (mode : ℚ → ℤ) (x : ℚ) (scale : ℤ) : BigDecimal :=
  ⟨mode (x * 10 ^ scale), scale⟩

/-- Zero has weight 0 and leading group 0. -/
def nbaseWeightAndLead (d : BigDecimal) : ℤ × ℕ :=
  let digits := mantissa d
  if digits == ['0'] then (0, 0)
  else
    let dweight := digits.length - 1 - d.scale
    let w := dweight / 4
    let count := (dweight - 4 * w + 1).toNat
    let lead := digits.take count
    (w, Nat.ofDigitChars 10 (lead ++ replicate (count - lead.length) '0') 0)

def selectDivScale (a b : BigDecimal) : ℤ :=
  let (w1, f1) := nbaseWeightAndLead a
  let (w2, f2) := nbaseWeightAndLead b
  let qweight := if f1 < f2 then w1 - w2 - 1 else w1 - w2
  min (max (max (16 - qweight * 4) (max a.scale 0 + max b.scale 0)) 0) 1000

/-- The `/` of decimals, to 100 significant digits. -/
def quotient (a b : BigDecimal) : BigDecimal :=
  let x := decimalValue a / decimalValue b
  withScaleRound halfUp x (99 - log 10 |x|)

def div (a b : BigDecimal) : Except TypeError BigDecimal :=
  if isZero b then .error .divisionByZero
  else .ok (withScaleRound halfUp (decimalValue (quotient a b)) (selectDivScale a b))

def rem (a b : BigDecimal) : Except TypeError BigDecimal :=
  if isZero b then .error .divisionByZero
  else
    let scale := max a.scale b.scale
    .ok (canonicalScale ⟨(a.digits * 10 ^ (scale - a.scale).toNat).tmod
      (b.digits * 10 ^ (scale - b.scale).toNat), scale⟩)

def roundTo (d : BigDecimal) (n : ℤ) : BigDecimal :=
  canonicalScale (withScaleRound halfUp (decimalValue d) (min n maxDscale))

def trunc (d : BigDecimal) (n : ℤ) : BigDecimal :=
  canonicalScale (withScaleRound down (decimalValue d) (min n maxDscale))

/-! ## The scale of a quotient -/

/-- The weight of the first base-10000 digit. -/
def nbaseWeight (x : ℚ) : ℤ := log 10000 |x|

/-- The first base-10000 digit. -/
def nbaseLead (x : ℚ) : ℕ := ⌊|x| / 10000 ^ nbaseWeight x⌋₊

def dscale (d : BigDecimal) : ℤ := max d.scale 0

/-- The rule of PostgreSQL. -/
def postgresDivScale (a b : BigDecimal) : ℤ :=
  let x := decimalValue a
  let y := decimalValue b
  let q := nbaseWeight x - nbaseWeight y - if nbaseLead x ≤ nbaseLead y then 1 else 0
  min (max (max (16 - 4 * q) (max (dscale a) (dscale b))) 0) 1000

theorem isZero_iff (d : BigDecimal) : isZero d = true ↔ d.digits = 0 := by
  rw [isZero, beq_iff_eq, mantissa]
  constructor
  · intro h
    have hvalue := congrArg (Nat.ofDigitChars 10 · 0) h
    simp only [Nat.ofDigitChars_toDigits (b := 10) (by norm_num) le_rfl] at hvalue
    exact natAbs_eq_zero.mp hvalue
  · intro h
    simp [h]

theorem abs_decimalValue (d : BigDecimal) :
    |decimalValue d| = d.digits.natAbs * (10 : ℚ) ^ (-d.scale) := by
  rw [decimalValue_eq, abs_mul, abs_of_pos (show (0 : ℚ) < 10 ^ (-d.scale) by positivity),
    Nat.cast_natAbs, cast_abs]

/-- Bounds by the number of digits. -/
theorem mantissa_bounds {d : BigDecimal} (h : d.digits ≠ 0) :
    (10 : ℚ) ^ (((mantissa d).length : ℤ) - 1 - d.scale) ≤ |decimalValue d| ∧
      |decimalValue d| < 10 ^ ((mantissa d).length - d.scale) := by
  have hpos : 0 < (mantissa d).length := Nat.length_toDigits_pos
  have hlt := (Nat.length_toDigits_le_iff (n := d.digits.natAbs) (by norm_num) hpos).mp le_rfl
  have hge : 10 ^ ((mantissa d).length - 1) ≤ d.digits.natAbs := by
    by_contra hlt
    rcases Nat.eq_zero_or_pos ((mantissa d).length - 1) with h0 | h0
    · simp [h0] at hlt
      exact h hlt
    · have := (Nat.length_toDigits_le_iff (by norm_num) h0).mpr (not_le.mp hlt)
      change (mantissa d).length ≤ _ at this
      omega
  rw [abs_decimalValue, sub_eq_add_neg (_ - 1), sub_eq_add_neg _ d.scale,
    zpow_add₀ (by norm_num), zpow_add₀ (by norm_num)]
  constructor
  · refine mul_le_mul_of_nonneg_right ?_ (by positivity)
    rw [show ((mantissa d).length : ℤ) - 1 = ((mantissa d).length - 1 : ℕ) by omega, zpow_natCast]
    exact_mod_cast hge
  · refine mul_lt_mul_of_pos_right ?_ (by positivity)
    rw [zpow_natCast]
    exact_mod_cast hlt

theorem nbaseWeightAndLead_eq (d : BigDecimal) :
    nbaseWeightAndLead d = (nbaseWeight (decimalValue d), nbaseLead (decimalValue d)) := by
  unfold nbaseWeightAndLead
  by_cases h : d.digits = 0
  · have hzero : decimalValue d = 0 := by simp [decimalValue_eq, h]
    simp [mantissa, h, hzero, nbaseWeight, nbaseLead]
  have hne : (mantissa d == ['0']) ≠ true := mt (isZero_iff d).mp h
  obtain ⟨hlo, hhi⟩ := mantissa_bounds h
  have hpos : 0 < |decimalValue d| := lt_of_lt_of_le (by positivity) hlo
  have hbase : ∀ k : ℤ, ((10000 : ℕ) : ℚ) ^ k = 10 ^ (4 * k) := fun k => by
    rw [zpow_mul]
    norm_num
  generalize hL : (mantissa d).length = L at hlo hhi
  generalize hw : (L - 1 - d.scale) / 4 = w
  have hweight : nbaseWeight (decimalValue d) = w := by
    have hlt : nbaseWeight (decimalValue d) < w + 1 := by
      rw [nbaseWeight, ← lt_zpow_iff_log_lt (by norm_num) hpos, hbase]
      exact hhi.trans_le (zpow_le_zpow_right₀ (by norm_num) (by omega))
    have hle : w ≤ nbaseWeight (decimalValue d) := by
      rw [nbaseWeight, ← zpow_le_iff_le_log (by norm_num) hpos, hbase]
      exact (zpow_le_zpow_right₀ (by norm_num) (by omega)).trans hlo
    omega
  simp only [hne, if_false, hL, hw, hweight, Prod.mk.injEq, true_and, Bool.false_eq_true]
  generalize hc : (L - 1 - d.scale - 4 * w + 1).toNat = c
  have hcount : (c : ℤ) - L = -d.scale - 4 * w := by omega
  rw [nbaseLead, hweight, abs_decimalValue, mantissa, ofDigitChars_lead]
  change ⌊_ * _ ^ ((c : ℤ) - (mantissa d).length)⌋₊ = _
  rw [hL, hcount, zpow_sub₀ (by norm_num), ← hbase, mul_div_assoc]
  norm_num

variable {x y : ℚ}

theorem halfUp_neg (x : ℚ) : halfUp (-x) = -halfUp x := by
  rcases lt_trichotomy x 0 with h | rfl | h
  · simp [halfUp, h, not_lt.mpr h.le]
  · simp [halfUp]
  · simp [halfUp, h, not_lt.mpr h.le]

theorem halfUp_of_nonneg (h : 0 ≤ x) : halfUp x = ⌊x + 1 / 2⌋ := by
  rw [halfUp, if_neg (not_lt.mpr h), round_eq]

/-- What is far enough from the ties may be rounded at a finer scale first. -/
theorem halfUp_twice {n m : ℕ} {k : ℤ} (hx : x * m = k) (h0 : 0 < m) (hm : m < n) (hn : Even n) :
    halfUp (halfUp (x * n) / n) = halfUp x := by
  wlog h : 0 ≤ x generalizing x k
  · have hneg := this (x := -x) (k := -k) (by push_cast; linarith) (by linarith)
    simpa [neg_mul, halfUp_neg, neg_div] using hneg
  obtain ⟨j, rfl⟩ := hn
  have hj : (0 : ℚ) < j := by
    exact_mod_cast (by omega : 0 < j)
  rw [halfUp_of_nonneg (x := x * _) (by positivity), halfUp_of_nonneg h]
  generalize hp : ⌊x * ((j + j : ℕ) : ℚ) + 1 / 2⌋ = p
  generalize hr : ⌊x + 1 / 2⌋ = r
  obtain ⟨hplo, hphi⟩ := floor_eq_iff.mp hp
  obtain ⟨hrlo, hrhi⟩ := floor_eq_iff.mp hr
  push_cast at hplo hphi ⊢
  -- the ties around `x` are multiples of the finer unit
  have hlo : (2 * r - 1) * j ≤ p := by
    rw [← hp, le_floor]
    push_cast
    nlinarith
  have hhi : p < (2 * r + 1) * j := by
    have hk : 2 * k + 1 ≤ (2 * r + 1) * m := by
      have : (2 * k : ℚ) < (2 * r + 1) * m := by
        rw [← hx]
        have : (0 : ℚ) < m := by exact_mod_cast h0
        nlinarith
      exact_mod_cast this
    have hpk : 2 * m * p ≤ 4 * j * k + m := by
      have : (2 * m * p : ℚ) ≤ 4 * j * k + m := by
        rw [← hx]
        have := mul_le_mul_of_nonneg_left hplo (show (0 : ℚ) ≤ 2 * m by positivity)
        linarith
      exact_mod_cast this
    by_contra! hge
    have hlt : (m : ℤ) < j + j := by exact_mod_cast hm
    have h₁ := mul_le_mul_of_nonneg_left hge (show (0 : ℤ) ≤ 2 * m by positivity)
    have h₂ := mul_le_mul_of_nonneg_left hk (show (0 : ℤ) ≤ 2 * j by positivity)
    linarith
  have hp0 : (0 : ℚ) ≤ p / (j + j) := by
    have : 0 ≤ p := hp ▸ floor_nonneg.mpr (by positivity)
    positivity
  rw [halfUp_of_nonneg hp0, floor_eq_iff]
  have hlo' : (2 * r - 1) * j ≤ (p : ℚ) := by exact_mod_cast hlo
  have hhi' : (p : ℚ) < (2 * r + 1) * j := by exact_mod_cast hhi
  constructor
  · rw [← sub_le_iff_le_add, le_div_iff₀ (by positivity)]
    linarith
  · rw [← lt_sub_iff_add_lt, div_lt_iff₀ (by positivity)]
    linarith

section Limits

variable {B : Builtins} {a b d : BigDecimal} {scale : ℤ}

theorem abs_halfUp_le (x : ℚ) : |(halfUp x : ℚ)| ≤ 2 * |x| := by
  wlog h : 0 ≤ x generalizing x
  · simpa [halfUp_neg] using this (-x) (by linarith)
  have hr := floor_le (x + 1 / 2)
  rw [halfUp_of_nonneg h, abs_of_nonneg h, abs_of_nonneg]
  · by_cases hx : x < 1 / 2
    · rw [floor_eq_zero_iff.mpr ⟨by linarith, by linarith⟩]
      simpa using h
    · linarith
  · exact_mod_cast floor_nonneg.mpr (by linarith)

theorem abs_down_le (x : ℚ) : |(down x : ℚ)| ≤ 1 * |x| := by
  unfold down
  split_ifs with h
  · have h0 : ((⌈x⌉ : ℤ) : ℚ) ≤ 0 := by exact_mod_cast ceil_nonpos.mpr h.le
    rw [abs_of_nonpos h0, abs_of_neg h]
    linarith [le_ceil x]
  · have h0 : (0 : ℚ) ≤ ⌊x⌋ := by exact_mod_cast floor_nonneg.mpr (not_lt.mp h)
    rw [abs_of_nonneg h0, abs_of_nonneg (not_lt.mp h)]
    linarith [floor_le x]

theorem shifted_value (digits : ℤ) {s t : ℤ} (h : s ≤ t) :
    ((digits * 10 ^ (t - s).toNat : ℤ) : ℚ) * 10 ^ (-t) = digits * 10 ^ (-s) := by
  push_cast
  rw [mul_assoc, ← zpow_natCast, ← zpow_add₀ (by norm_num)]
  congr 2
  omega

theorem decimalValue_canonicalScale (d : BigDecimal) :
    decimalValue (canonicalScale d) = decimalValue d := by
  unfold canonicalScale
  split_ifs with h
  · have := shifted_value d.digits h.le
    simpa [decimalValue_eq] using this
  · rfl

theorem scale_canonicalScale (d : BigDecimal) : (canonicalScale d).scale = max d.scale 0 := by
  unfold canonicalScale
  split_ifs with h
  · exact (max_eq_right h.le).symm
  · exact (max_eq_left (not_lt.mp h)).symm

theorem decimalValue_add (a b : BigDecimal) :
    decimalValue (addDecimal a b) = decimalValue a + decimalValue b := by
  rw [addDecimal, decimalValue_canonicalScale, decimalValue_eq, decimalValue_eq, decimalValue_eq,
    cast_add, add_mul, shifted_value _ (le_max_left _ _), shifted_value _ (le_max_right _ _)]

/-- A numeric as they are stored. -/
def InFormat (d : BigDecimal) : Prop := 0 ≤ d.scale ∧ withinFormatLimits d = true

instance : DecidablePred InFormat := fun _ => inferInstanceAs (Decidable (_ ∧ _))

theorem inFormat_iff : InFormat d ↔
    0 ≤ d.scale ∧ d.scale ≤ maxDscale ∧ |decimalValue d| < 10 ^ (maxWeight + 1) := by
  refine and_congr_right fun h => ?_
  obtain ⟨k, hk⟩ := eq_ofNat_of_zero_le h
  have hlen : (mantissa d).length - 1 - d.scale ≤ maxWeight ↔
      d.digits.natAbs < 10 ^ (maxWeight + 1 + k) := by
    rw [← Nat.length_toDigits_le_iff (by norm_num) (by omega), hk]
    change _ ↔ (mantissa d).length ≤ _
    omega
  rw [withinFormatLimits, Bool.and_eq_true, decide_eq_true_eq, decide_eq_true_eq, hlen,
    abs_decimalValue, hk, zpow_neg, zpow_natCast, ← div_eq_mul_inv, div_lt_iff₀ (by positivity),
    ← pow_add]
  norm_cast

theorem pow_lt_pow_weight {m : ℕ} (hm : m < 10) :
    (m : ℚ) * 10 ^ maxWeight < 10 ^ (maxWeight + 1) := by
  rw [pow_succ']
  exact mul_lt_mul_of_pos_right (by exact_mod_cast hm) (by positivity)

theorem InFormat.add (ha : InFormat a) (hb : InFormat b)
    (h : |decimalValue a| + |decimalValue b| < 10 ^ (maxWeight + 1)) :
    InFormat (addDecimal a b) := by
  rw [inFormat_iff] at *
  have hscale : (addDecimal a b).scale = max (max a.scale b.scale) 0 := scale_canonicalScale _
  rw [decimalValue_add]
  exact ⟨by omega, by omega, (abs_add_le _ _).trans_lt h⟩

theorem abs_rounded_le {mode : ℚ → ℤ} {c : ℚ} (hmode : ∀ x, |(mode x : ℚ)| ≤ c * |x|) (x : ℚ)
    (scale : ℤ) : |decimalValue (withScaleRound mode x scale)| ≤ c * |x| := by
  have hpos : (0 : ℚ) < 10 ^ scale := by positivity
  have hval : |decimalValue (withScaleRound mode x scale)| =
      |(mode (x * 10 ^ scale) : ℚ)| / 10 ^ scale := by
    rw [decimalValue_eq, withScaleRound, zpow_neg, ← div_eq_mul_inv, abs_div, abs_of_pos hpos]
  have hle := hmode (x * 10 ^ scale)
  rw [abs_mul, abs_of_pos hpos, ← mul_assoc] at hle
  exact hval.trans_le ((div_le_iff₀ hpos).mpr hle)

theorem inFormat_rounded {mode : ℚ → ℤ} {c : ℚ} (hmode : ∀ x, |(mode x : ℚ)| ≤ c * |x|)
    (hscale : scale ≤ maxDscale) (h : c * |x| < 10 ^ (maxWeight + 1)) :
    InFormat (canonicalScale (withScaleRound mode x scale)) := by
  rw [inFormat_iff, decimalValue_canonicalScale, scale_canonicalScale]
  have hmax : (0 : ℤ) ≤ maxDscale := by decide
  exact ⟨le_max_right _ _, max_le hscale hmax, (abs_rounded_le hmode x scale).trans_lt h⟩

theorem InFormat.rem (ha : InFormat a) (hb : InFormat b) (h : b.digits ≠ 0) :
    ∃ r, rem a b = .ok r ∧ InFormat r := by
  rw [inFormat_iff] at ha hb
  refine ⟨_, if_neg (mt (isZero_iff b).mp h), ?_⟩
  rw [inFormat_iff, decimalValue_canonicalScale, scale_canonicalScale]
  refine ⟨le_max_right _ _, by simp; omega, lt_of_le_of_lt ?_ ha.2.2⟩
  have habs : ∀ x y : ℤ, |(x.tmod y : ℚ)| ≤ |(x : ℚ)| := fun x y => by
    rw [← cast_abs, ← cast_abs, abs_eq_natAbs, abs_eq_natAbs, natAbs_tmod]
    exact_mod_cast Nat.mod_le _ _
  rw [decimalValue_eq, decimalValue_eq, ← shifted_value a.digits (le_max_left _ b.scale), abs_mul,
    abs_mul]
  exact mul_le_mul_of_nonneg_right (habs _ _) (abs_nonneg _)

/-- The aggregate of a group of numeric values. -/
def aggregate (B : Builtins) (func : AggFunc) (init : AccState) (rows : List BigDecimal) :
    Result Datum := do
  let state ← rows.foldlM (fun state v => addValue B func (.numeric v) state) init
  state.finish B

theorem fold_sum (rows : List BigDecimal) (acc : BigDecimal) :
    rows.foldlM (fun state v => addValue B .sum (.numeric v) state) (.sumN (some (.numeric acc))) =
      .ok (.sumN (some (.numeric (rows.foldl addDecimal acc)))) := by
  induction rows generalizing acc with
  | nil => rfl
  | cons v rows ih => exact ih (addDecimal acc v)

theorem fold_avg (rows : List BigDecimal) (acc : BigDecimal) (m : ℕ) :
    rows.foldlM (fun state v => addValue B .avg (.numeric v) state)
        (.avgN (some (.numeric acc)) m) =
      .ok (.avgN (some (.numeric (rows.foldl addDecimal acc))) (m + rows.length)) := by
  induction rows generalizing acc m with
  | nil => rfl
  | cons v rows ih =>
    rw [length_cons, add_comm rows.length, ← add_assoc]
    exact ih (addDecimal acc v) (m + 1)

theorem foldl_bounds {c : ℚ} (rows : List BigDecimal) (acc : BigDecimal)
    (hrows : ∀ v ∈ rows, v.scale ≤ maxDscale ∧ |decimalValue v| ≤ c)
    (hacc : 0 ≤ acc.scale ∧ acc.scale ≤ maxDscale) : let sum := rows.foldl addDecimal acc
    (0 ≤ sum.scale ∧ sum.scale ≤ maxDscale) ∧
      |decimalValue sum| ≤ |decimalValue acc| + rows.length * c := by
  induction rows generalizing acc with
  | nil => simpa using hacc
  | cons v rows ih =>
    obtain ⟨⟨hv, hvc⟩, hrest⟩ := forall_mem_cons.mp hrows
    have hscale : (addDecimal acc v).scale = max (max acc.scale v.scale) 0 := scale_canonicalScale _
    obtain ⟨hs, hsum⟩ := ih (addDecimal acc v) hrest (by omega)
    refine ⟨hs, hsum.trans ?_⟩
    rw [decimalValue_add, length_cons]
    push_cast
    linarith [abs_add_le (decimalValue acc) (decimalValue v)]

theorem InFormat.quotient (h : |decimalValue a| ≤ 10 ^ maxWeight) {m : ℕ} (hm : 0 < m) :
    ∃ r, div a ⟨m, 0⟩ = .ok r ∧ InFormat r := by
  refine ⟨_, if_neg (mt (isZero_iff _).mp (by simpa using hm.ne')), ?_⟩
  have hmax : selectDivScale a ⟨m, 0⟩ ≤ 1000 := min_le_right _ _
  have h0 : 0 ≤ selectDivScale a ⟨m, 0⟩ := le_min (le_max_right _ _) (by norm_num)
  have hquot : |decimalValue a / decimalValue ⟨m, 0⟩| ≤ |decimalValue a| := by
    rw [abs_div]
    refine div_le_self (abs_nonneg _) ?_
    simpa [decimalValue_eq] using Nat.succ_le_of_lt hm
  refine inFormat_iff.mpr ⟨h0, hmax.trans (by decide), ?_⟩
  have hlt := pow_lt_pow_weight (m := 4) (by norm_num)
  have h₁ := abs_rounded_le abs_halfUp_le (decimalValue (Numeric.quotient a ⟨m, 0⟩))
    (selectDivScale a ⟨m, 0⟩)
  have h₂ : |decimalValue (Numeric.quotient a ⟨m, 0⟩)| ≤ _ := abs_rounded_le abs_halfUp_le _ _
  push_cast at hlt
  linarith

theorem aggregates_in_format (hB : B.numericDiv = div) {rows : List BigDecimal}
    (hrows : ∀ v ∈ rows, InFormat v) (hlen : rows.length < 2 ^ 63)
    (hsize : ∀ v ∈ rows, |decimalValue v| * rows.length ≤ 10 ^ maxWeight) :
    (aggregate B .sum (.sumN none) rows = .ok .null ∨
      ∃ d, aggregate B .sum (.sumN none) rows = .ok (.numeric d) ∧ InFormat d) ∧
    (aggregate B .avg (.avgN none 0) rows = .ok .null ∨
      ∃ d, aggregate B .avg (.avgN none 0) rows = .ok (.numeric d) ∧ InFormat d) := by
  cases rows with
  | nil => exact ⟨.inl rfl, .inl rfl⟩
  | cons v rows =>
    have hpos : (0 : ℚ) < (v :: rows).length := by simp; positivity
    have hv := inFormat_iff.mp (hrows v mem_cons_self)
    obtain ⟨hscale, hsum⟩ := foldl_bounds (c := 10 ^ maxWeight / (v :: rows).length) rows v
      (fun w hw => ⟨(inFormat_iff.mp (hrows w (.tail v hw))).2.1,
        (le_div_iff₀ hpos).mpr (hsize w (.tail v hw))⟩) ⟨hv.1, hv.2.1⟩
    have hle : |decimalValue (rows.foldl addDecimal v)| ≤ 10 ^ maxWeight := by
      have hshare : ∀ W : ℚ, W / (rows.length + 1) + rows.length * (W / (rows.length + 1)) = W := by
        intro W
        field_simp
        ring
      have hvle := (le_div_iff₀ hpos).mpr (hsize v mem_cons_self)
      rw [length_cons, Nat.cast_add, Nat.cast_one] at hvle hsum
      exact (hsum.trans (add_le_add_left hvle _)).trans_eq (hshare _)
    refine ⟨.inr ⟨rows.foldl addDecimal v, ?_, inFormat_iff.mpr ⟨hscale.1, hscale.2, ?_⟩⟩, .inr ?_⟩
    · exact congrArg (· >>= AccState.finish B) (fold_sum rows v)
    · have hlt := pow_lt_pow_weight (m := 1) (by norm_num)
      push_cast at hlt
      linarith
    · obtain ⟨r, hr, hin⟩ := InFormat.quotient hle (m := 1 + rows.length) (by omega)
      refine ⟨r, (congrArg (· >>= AccState.finish B) (fold_avg rows v 1)).trans ?_, hin⟩
      have hcount : (Int64.ofNat (1 + rows.length)).toInt = (1 + rows.length : ℕ) :=
        Int64.toInt_ofNat_of_lt (by simpa [add_comm] using hlen)
      have harith : B.arith .div (.numeric (rows.foldl addDecimal v))
          (.int8 (Int64.ofNat (1 + rows.length))) = .ok (.numeric r) := by
        change (B.numericDiv _ ⟨(Int64.ofNat _).toInt, 0⟩).map Datum.numeric = _
        rw [hB, hcount, hr]
        rfl
      change ite (0 < 1 + rows.length) (lift ((B.arith .div _ _).mapError .type)) _ = _
      rw [if_pos (by omega), harith]
      rfl

end Limits

/-! ## Type modifiers -/

/-- What is rounded to the scale must fit the digits that are left; a zero always does. -/
def applyTypmod (d : BigDecimal) (tm : Typmod) : Except TypeError BigDecimal :=
  let r := withScaleRound halfUp (decimalValue d) tm.scale
  if isZero r = false ∧ (mantissa r).length - r.scale > (tm.precision : ℤ) - tm.scale then
    .error .overflow
  else .ok (canonicalScale r)

theorem halfUp_intCast (n : ℤ) : halfUp n = n := by
  rw [halfUp, ← Int.cast_neg, round_intCast, round_intCast, neg_neg, ite_self]

/-- A modifier takes what is below its bound and keeps its own results. -/
theorem applyTypmod_exact (d : BigDecimal) (tm : Typmod) :
    let r : BigDecimal := ⟨halfUp (decimalValue d * 10 ^ (tm.scale : ℤ)), tm.scale⟩
    let fits := |decimalValue r| < 10 ^ ((tm.precision : ℤ) - tm.scale)
    (fits → applyTypmod d tm = .ok r ∧ applyTypmod r tm = .ok r) ∧
      (¬fits → applyTypmod d tm = .error .overflow) := by
  intro r fits
  have hagain : withScaleRound halfUp (decimalValue r) tm.scale = r := by
    have hint : decimalValue r * 10 ^ (tm.scale : ℤ) = r.digits := by
      rw [decimalValue_eq, mul_assoc, ← zpow_add₀ (by norm_num)]
      simp [r]
    rw [withScaleRound, hint, halfUp_intCast]
  have hcan : canonicalScale r = r := if_neg (by simp [r])
  have hcheck : (isZero r = false ∧ (mantissa r).length - r.scale > (tm.precision : ℤ) - tm.scale) ↔
      ¬fits := by
    by_cases h0 : r.digits = 0
    · simp [(isZero_iff r).mpr h0, fits, decimalValue_eq, h0]
      positivity
    · obtain ⟨hlo, hhi⟩ := mantissa_bounds h0
      rw [Bool.eq_false_iff, and_iff_right (mt (isZero_iff r).mp h0)]
      constructor
      · intro hgt
        exact not_lt.mpr ((zpow_le_zpow_right₀ (by norm_num) (by omega)).trans hlo)
      · intro hn
        by_contra hle
        exact hn (hhi.trans_le (zpow_le_zpow_right₀ (by norm_num) (not_lt.mp hle)))
  refine ⟨fun h => ?_, fun h => if_pos (hcheck.mpr h)⟩
  have hok : applyTypmod d tm = .ok r :=
    (if_neg fun hc => hcheck.mp hc h).trans (congrArg _ hcan)
  exact ⟨hok, by rw [applyTypmod, hagain]; exact hok⟩

end Crabgresql.Executor.Numeric
