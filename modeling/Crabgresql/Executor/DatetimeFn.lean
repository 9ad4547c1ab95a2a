import Crabgresql.Executor.Datetime
import Crabgresql.Lib.Decimals

/-!
# Fields of timestamps and intervals

The fields of an interval are extracted as decimal texts, which are then read as numbers.
-/

namespace Crabgresql.Executor

open Pgtypes Calendar Builtins Decimals

/-! ## Extraction -/

def unknownField (field : String) : ValueError :=
  .invalidParameterValue ("unit \"" ++ field ++ "\" not recognized")

def secondsStr (secs subsecNanos : ℤ) : List Char :=
  let micros := (subsecNanos.tdiv 1000).natAbs
  if micros = 0 then intStr secs else intStr secs ++ '.' :: trimmed 6 micros

/-- The width of the fraction is the number of zeros of the divisor. -/
def decimalMicrosScaled (totalMicros : ℤ) (divisor : ℕ) : List Char :=
  if totalMicros.tmod divisor = 0 then intStr (totalMicros.tdiv divisor)
  else
    (if totalMicros < 0 then ['-'] else []) ++ Nat.toDigits 10 (totalMicros.natAbs / divisor) ++
      '.' :: trimmed (Nat.log 10 divisor) (totalMicros.natAbs % divisor)

def millisStr (secs subsecNanos : ℤ) : List Char :=
  decimalMicrosScaled (secs * 1000000 + subsecNanos.tdiv 1000) 1000

def microsStr (secs subsecNanos : ℤ) : List Char :=
  intStr (secs * 1000000 + subsecNanos.tdiv 1000)

def epochStringMicros (totalMicros : ℤ) : List Char := decimalMicrosScaled totalMicros 1000000

def extractFromInterval (field : String) (iv : Interval) :
    Outcome (Except ValueError (List Char)) :=
  let months := iv.months.toInt
  let secsWhole := iv.micros.toInt.tdiv 1000000
  let subsec := iv.micros.toInt.tmod 1000000
  match field with
  | "millennium" => return .ok (intStr (months.tdiv 12000))
  | "century" => return .ok (intStr (months.tdiv 1200))
  | "decade" => return .ok (intStr (months.tdiv 120))
  | "year" => return .ok (intStr (months.tdiv 12))
  | "quarter" => return .ok (intStr ((months.tmod 12).tdiv 3 + 1))
  | "month" => return .ok (intStr (months.tmod 12))
  | "day" => return .ok (intStr iv.days.toInt)
  | "hour" => return .ok (intStr (secsWhole.tdiv 3600))
  | "minute" => return .ok (intStr ((secsWhole.tmod 3600).tdiv 60))
  | "second" => return .ok (secondsStr (secsWhole.tmod 60) (subsec * 1000))
  | "milliseconds" => return .ok (millisStr (secsWhole.tmod 60) (subsec * 1000))
  | "microseconds" => return .ok (microsStr (secsWhole.tmod 60) (subsec * 1000))
  | "epoch" => do
    let days ← i64 (months * 30 + iv.days.toInt)
    let micros ← i64 (days * 86400000000)
    let totalMicros ← i64 (micros + iv.micros.toInt)
    return .ok (epochStringMicros totalMicros)
  | _ => return .error (unknownField field)

/-- The number a field is extracted as. -/
def extracted (field : String) (iv : Interval) : Option ℚ :=
  match extractFromInterval field iv with
  | .ok (.ok text) => readText text
  | _ => none

theorem read_secondsStr {secs sub : ℤ} (hsub : sub.natAbs < 1000000) (hpos : 0 ≤ secs → 0 ≤ sub)
    (hneg : secs < 0 → sub ≤ 0) :
    readText (secondsStr secs (sub * 1000)) = some ((secs : ℚ) + sub / 1000000) := by
  rw [secondsStr, Int.mul_tdiv_cancel _ (by norm_num)]
  split_ifs with h0
  · rw [read_intStr, Int.natAbs_eq_zero.mp h0]
    simp
  · rw [read_intStr_append _ rfl fun c => isDigit_of_mem_trimmed, List.tail_cons,
      fraction_trimmed (by simpa using hsub) (by norm_num)]
    split_ifs with hs
    · rw [cast_natAbs_of_nonpos (hneg hs)]
      ring_nf
    · rw [cast_natAbs_of_nonneg (hpos (not_lt.mp hs))]
      ring_nf

theorem read_decimalMicrosScaled (total : ℤ) (width : ℕ) (hw : 0 < width) :
    readText (decimalMicrosScaled total (10 ^ width)) = some ((total : ℚ) / 10 ^ width) := by
  have hpos : (10 ^ width : ℚ) ≠ 0 := by positivity
  have hfrac : (↑(total.natAbs / 10 ^ width) : ℚ) + fraction ('.' ::
      trimmed (Nat.log 10 (10 ^ width)) (total.natAbs % 10 ^ width)).tail =
        total.natAbs / 10 ^ width := by
    have hdiv := Nat.div_add_mod total.natAbs (10 ^ width)
    rw [Nat.log_pow (by norm_num), List.tail_cons,
      fraction_trimmed (Nat.mod_lt _ (by positivity)) hw, eq_div_iff hpos, add_mul,
      div_mul_cancel₀ _ hpos, mul_comm]
    exact_mod_cast hdiv
  unfold decimalMicrosScaled
  split_ifs with h0 hneg
  · rw [read_intStr, Option.some_inj, eq_div_iff hpos]
    exact_mod_cast Int.tdiv_mul_cancel (Int.dvd_of_tmod_eq_zero h0)
  · rw [List.append_assoc, List.singleton_append, readText,
      readUnsigned_append rfl fun c => isDigit_of_mem_trimmed, hfrac, cast_natAbs_of_nonpos hneg.le]
    simp [neg_div]
  · rw [List.nil_append, read_unsigned, readUnsigned_append rfl fun c => isDigit_of_mem_trimmed,
      hfrac, cast_natAbs_of_nonneg (not_lt.mp hneg)]

def timeMicros (t : Time) : ℤ := t.nanos / 1000

def year (d : Date) : ℤ := monthOf d.day / 12

def month (d : Date) : ℤ := monthOf d.day % 12 + 1

def prevMonth (year month : ℤ) : ℤ × ℤ :=
  if month = 1 then (year - 1, 12) else (year, month - 1)

def daysInMonth (year month : ℤ) : Outcome ℤ :=
  if |year| ≤ 9999 then .ok (monthLength (12 * year + month - 1)) else .error .panic

/-- A negative count of days is filled up with the month before that of `finish`. -/
def borrowDays (finish : Date) (months days : ℤ) : Outcome (ℤ × ℤ) :=
  if days < 0 then do
    let (y, m) := prevMonth (year finish) (month finish)
    let length ← daysInMonth y m
    return (months - 1, days + length)
  else return (months, days)

def age (finish start : DateTime) : Outcome Interval := do
  let years := year finish.date - year start.date
  let months := month finish.date - month start.date
  let days := dayOfMonth finish.date - dayOfMonth start.date
  let micros := timeMicros finish.time - timeMicros start.time
  let (micros, days) := if micros < 0 then (micros + 86400000000, days - 1) else (micros, days)
  let (months, days) ← borrowDays finish.date months days
  let (years, months) := if months < 0 then (years - 1, months + 12) else (years, months)
  return ⟨.ofInt (years * 12 + months), .ofInt days, .ofInt micros⟩

/-- The whole days from `start` to `finish`, as if both were in one month. -/
def daysApart (finish start : DateTime) : ℤ :=
  dayOfMonth finish.date - dayOfMonth start.date +
    (timeMicros finish.time - timeMicros start.time) / 86400000000

theorem monthOf_bounds (d : Date) : -119988 ≤ monthOf d.day ∧ monthOf d.day ≤ 119999 :=
  ⟨monthOf_mono d.in_range.1, monthOf_mono d.in_range.2⟩

theorem timeMicros_bounds (t : Time) : 0 ≤ timeMicros t ∧ timeMicros t < 86400000000 := by
  have := t.in_range
  unfold timeMicros
  omega

theorem borrowDays_eq (d : Date) (months days : ℤ) : borrowDays d months days = if days < 0 then
      if monthOf d.day = -119988 then .error .panic
      else .ok (months - 1, days + monthLength (monthOf d.day - 1))
    else .ok (months, days) := by
  have hbounds := monthOf_bounds d
  unfold borrowDays prevMonth year month
  split_ifs with hneg hfirst hpanic hpanic
  · simp only [daysInMonth, abs_le]
    rw [if_neg (by omega)]
    rfl
  · simp only [daysInMonth, abs_le]
    rw [if_pos (by omega), show 12 * (monthOf d.day / 12 - 1) + 12 - 1 = monthOf d.day - 1 by omega]
    rfl
  · omega
  · simp only [daysInMonth, abs_le]
    rw [if_pos (by omega),
      show 12 * (monthOf d.day / 12) + (monthOf d.day % 12 + 1 - 1) - 1 = monthOf d.day - 1 by omega]
    rfl
  · rfl

theorem age_eq (a b : DateTime) : age a b = let months := monthOf a.date.day - monthOf b.date.day
    let micros := Int64.ofInt ((timeMicros a.time - timeMicros b.time) % 86400000000)
    if daysApart a b < 0 then
      if monthOf a.date.day = -119988 then .error .panic
      else .ok ⟨.ofInt (months - 1), .ofInt (daysApart a b + monthLength (monthOf a.date.day - 1)),
        micros⟩
    else .ok ⟨.ofInt months, .ofInt (daysApart a b), micros⟩ := by
  have ha := timeMicros_bounds a.time
  have hb := timeMicros_bounds b.time
  have hpair : (if timeMicros a.time - timeMicros b.time < 0 then
      (timeMicros a.time - timeMicros b.time + 86400000000,
        dayOfMonth a.date - dayOfMonth b.date - 1)
    else (timeMicros a.time - timeMicros b.time, dayOfMonth a.date - dayOfMonth b.date)) =
      ((timeMicros a.time - timeMicros b.time) % 86400000000, daysApart a b) := by
    unfold daysApart
    split_ifs <;> rw [Prod.mk.injEq] <;> omega
  have hmonths (years months : ℤ) : (if months < 0 then (years - 1, months + 12)
      else (years, months)).1 * 12 + (if months < 0 then (years - 1, months + 12)
      else (years, months)).2 = years * 12 + months := by
    split_ifs <;> omega
  simp only [age, hpair, borrowDays_eq]
  have hk : (year a.date - year b.date) * 12 + (month a.date - month b.date) =
      monthOf a.date.day - monthOf b.date.day := by
    unfold year month
    omega
  split_ifs with hneg hfirst
  · rfl
  · simp only [bind, Except.bind, pure, Except.pure, hmonths]
    rw [← hk, add_sub_assoc]
  · simp only [bind, Except.bind, pure, Except.pure, hmonths, hk]

theorem le_months_of_le {a b : DateTime} (h : instant b ≤ instant a) :
    (if daysApart a b < 0 then 1 else 0) ≤ monthOf a.date.day - monthOf b.date.day := by
  have ha := a.time.in_range
  have hb := b.time.in_range
  unfold instant at h
  have hk := monthOf_mono (show b.date.day ≤ a.date.day by omega)
  split_ifs with hneg
  · by_contra hle
    have heq : monthOf a.date.day = monthOf b.date.day := by omega
    simp only [daysApart, dayOfMonth, timeMicros, heq] at hneg
    omega
  · omega

theorem age_fields (a b : DateTime) (hborrow : daysApart a b < 0 →
      monthOf a.date.day ≠ -119988 ∧ dayOfMonth b.date ≤ monthLength (monthOf a.date.day - 1)) :
    ∃ iv, age a b = .ok iv ∧ 0 ≤ iv.micros.toInt ∧ iv.micros.toInt < 86400000000 ∧
      0 ≤ iv.days.toInt ∧ iv.days.toInt ≤ 30 ∧ (instant b ≤ instant a → 0 ≤ iv.months.toInt) ∧
      (dayOfMonth a.date = dayOfMonth b.date → timeMicros a.time = timeMicros b.time →
        iv.months.toInt = monthOf a.date.day - monthOf b.date.day ∧ iv.days.toInt = 0 ∧
          iv.micros.toInt = 0) := by
  have hda := dayOfMonth_bounds a.date
  have hdb := dayOfMonth_bounds b.date
  have hla := monthLength_bounds (monthOf a.date.day)
  have hlp := monthLength_bounds (monthOf a.date.day - 1)
  have hka := monthOf_bounds a.date
  have hkb := monthOf_bounds b.date
  have hta := timeMicros_bounds a.time
  have htb := timeMicros_bounds b.time
  have hle := fun h => le_months_of_le (a := a) (b := b) h
  have hu : (Int64.ofInt ((timeMicros a.time - timeMicros b.time) % 86400000000)).toInt =
      (timeMicros a.time - timeMicros b.time) % 86400000000 :=
    Int64.toInt_ofInt_of_le (by omega) (by omega)
  rw [age_eq]
  unfold daysApart at hborrow hle ⊢
  split_ifs at hle ⊢ with hneg hfirst
  · exact absurd hfirst (hborrow hneg).1
  · have hlen := (hborrow hneg).2
    refine ⟨_, rfl, ?_⟩
    rw [hu, Int32.toInt_ofInt_of_le (by omega) (by omega),
      Int32.toInt_ofInt_of_le (by omega) (by omega)]
    omega
  · refine ⟨_, rfl, ?_⟩
    rw [hu, Int32.toInt_ofInt_of_le (by omega) (by omega),
      Int32.toInt_ofInt_of_le (by omega) (by omega)]
    omega

end Crabgresql.Executor
