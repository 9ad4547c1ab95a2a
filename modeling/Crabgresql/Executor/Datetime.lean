import Crabgresql.Executor.Values
import Crabgresql.Lib.Calendar

/-!
# Arithmetic of timestamps and intervals

An interval keeps its months, days and microseconds apart. The calendar library takes
shifts of a bounded size only and panics at a larger one; a date beyond its range is
an error. Integers are checked for overflow.
-/

namespace Crabgresql.Executor

open Pgtypes Calendar Builtins Option

/-- How a call ends without a value. -/
inductive Fault
  | panic
  | error (e : TypeError)
  deriving DecidableEq

abbrev Outcome (α : Type) := Except Fault α

def fieldOverflow {α : Type} (value : String) : Outcome α :=
  .error (.error (.datetimeFieldOverflow value))

def i64 (x : ℤ) : Outcome ℤ := if -2 ^ 63 ≤ x ∧ x < 2 ^ 63 then .ok x else .error .panic

def i32TryFrom (value : String) (x : ℤ) : Outcome Int32 :=
  if -2 ^ 31 ≤ x ∧ x < 2 ^ 31 then .ok (.ofInt x) else fieldOverflow value

theorem tdiv_tmod_spec (x : ℤ) {d : ℤ} (hd : 0 < d) :
    d * x.tdiv d + x.tmod d = x ∧ -d < x.tmod d ∧ x.tmod d < d ∧
      (0 ≤ x → 0 ≤ x.tmod d) ∧ (x ≤ 0 → x.tmod d ≤ 0) := by
  refine ⟨x.mul_tdiv_add_tmod d, x.lt_tmod_of_pos hd, x.tmod_lt_of_pos hd,
    Int.tmod_nonneg d, fun hx => ?_⟩
  have hneg := Int.tmod_nonneg d (neg_nonneg.mpr hx)
  rw [Int.neg_tmod] at hneg
  omega

/-! ## Justified intervals -/

/-- Takes a unit from `whole`, or gives it one, when the sign of what is below disagrees. -/
def carry (unit whole part rest : ℤ) : Outcome (ℤ × ℤ) :=
  if 0 < whole ∧ (part < 0 ∨ part = 0 ∧ rest < 0) then do
    let part ← i64 (part + unit)
    let whole ← i64 (whole - 1)
    return (whole, part)
  else if whole < 0 ∧ (0 < part ∨ part = 0 ∧ 0 < rest) then do
    let part ← i64 (part - unit)
    let whole ← i64 (whole + 1)
    return (whole, part)
  else return (whole, part)

def justifyFields (months days micros : ℤ) : Outcome (ℤ × ℤ × ℤ) := do
  let days ← i64 (days + micros.tdiv 86400000000)
  let micros := micros.tmod 86400000000
  let months ← i64 (months + days.tdiv 30)
  let (months, days) ← carry 30 months (days.tmod 30) micros
  let (days, micros) ← carry 86400000000 days micros 0
  return (months, days, micros)

def justifyInterval (iv : Interval) : Outcome Interval := do
  let (months, days, micros) ← justifyFields iv.months.toInt iv.days.toInt iv.micros.toInt
  let months ← i32TryFrom "justify_interval" months
  let days ← i32TryFrom "justify_interval" days
  return ⟨months, days, .ofInt micros⟩

/-- Days and microseconds below a month and a day, and no two fields of opposite signs. -/
def Justified (months days micros : ℤ) : Prop :=
  |days| < 30 ∧ |micros| < 86400000000 ∧
    (0 ≤ months ∧ 0 ≤ days ∧ 0 ≤ micros ∨ months ≤ 0 ∧ days ≤ 0 ∧ micros ≤ 0)

variable {months days micros : ℤ}

theorem i64_eq {x : ℤ} (h : -2 ^ 63 ≤ x) (h' : x < 2 ^ 63) : i64 x = .ok x := if_pos ⟨h, h'⟩

/-- The part comes out with the sign of the whole, and a full unit only if the rest is to be taken
from it. -/
theorem carry_ok (unit whole part rest : ℤ) (hunit : 0 < unit ∧ unit < 2 ^ 62)
    (hwhole : |whole| < 2 ^ 62) (hpart : |part| ≤ unit)
    (hfull : (part = unit → rest < 0) ∧ (part = -unit → 0 < rest)) :
    ∃ w p, carry unit whole part rest = .ok (w, p) ∧ unit * w + p = unit * whole + part ∧
      |p| ≤ unit ∧ (p = unit → rest < 0) ∧ (p = -unit → 0 < rest) ∧
      (0 < w → 0 < p ∨ p = 0 ∧ 0 ≤ rest) ∧ (w < 0 → p < 0 ∨ p = 0 ∧ rest ≤ 0) := by
  rw [abs_lt] at hwhole
  rw [abs_le] at hpart
  unfold carry
  split_ifs with hpos hneg
  · refine ⟨whole - 1, part + unit, ?_, by ring, ?_⟩
    · rw [i64_eq (by omega) (by omega), i64_eq (by omega) (by omega)]
      rfl
    · rw [abs_le]
      omega
  · refine ⟨whole + 1, part - unit, ?_, by ring, ?_⟩
    · rw [i64_eq (by omega) (by omega), i64_eq (by omega) (by omega)]
      rfl
    · rw [abs_le]
      omega
  · refine ⟨whole, part, rfl, rfl, ?_⟩
    rw [abs_le]
    omega

theorem justifyFields_ok (months days micros : ℤ) (hmonths : |months| ≤ 2 ^ 31)
    (hdays : |days| ≤ 2 ^ 31) (hmicros : |micros| ≤ 2 ^ 63) :
    ∃ m d u, justifyFields months days micros = .ok (m, d, u) ∧ Justified m d u ∧
      (m * 30 + d) * 86400000000 + u = (months * 30 + days) * 86400000000 + micros := by
  have hu := tdiv_tmod_spec micros (d := 86400000000) (by norm_num)
  have hd := tdiv_tmod_spec (days + micros.tdiv 86400000000) (d := 30) (by norm_num)
  rw [abs_le] at hmonths hdays hmicros
  generalize hq : micros.tdiv 86400000000 = q at *
  generalize hr : micros.tmod 86400000000 = r at *
  obtain ⟨m, d, hcarry, hsum, hd30, hfull, hsign⟩ := carry_ok 30 (months + (days + q).tdiv 30)
    ((days + q).tmod 30) r (by norm_num) (by rw [abs_lt]; omega) (by rw [abs_le]; omega) (by omega)
  rw [abs_le] at hd30
  obtain ⟨d', u, hcarry', hsum', hu', hfull', hsign'⟩ := carry_ok 86400000000 d r 0 (by norm_num)
    (by rw [abs_lt]; omega) (by rw [abs_le]; omega) (by omega)
  rw [abs_le] at hu'
  refine ⟨m, d', u, ?_, ?_, by omega⟩
  · simp only [justifyFields, hq, hr]
    rw [i64_eq (by omega) (by omega)]
    change ((i64 (months + (days + q).tdiv 30)) >>= _) = _
    rw [i64_eq (by omega) (by omega)]
    change (carry 30 (months + (days + q).tdiv 30) ((days + q).tmod 30) r >>= _) = _
    rw [hcarry]
    change (carry 86400000000 d r 0 >>= _) = _
    rw [hcarry']
    rfl
  · simp only [Justified, abs_lt]
    omega

theorem justifyInterval_eq (iv : Interval) :
    ∃ m d u, Justified m d u ∧ (m * 30 + d) * 86400000000 + u = canonicalMicros iv ∧
      justifyInterval iv = if -2 ^ 31 ≤ m ∧ m < 2 ^ 31 then .ok ⟨.ofInt m, .ofInt d, .ofInt u⟩
        else fieldOverflow "justify_interval" := by
  have hmonths := And.intro iv.months.le_toInt iv.months.toInt_lt
  have hdays := And.intro iv.days.le_toInt iv.days.toInt_lt
  have hmicros := And.intro iv.micros.le_toInt iv.micros.toInt_lt
  obtain ⟨m, d, u, hok, hjust, htotal⟩ := justifyFields_ok iv.months.toInt iv.days.toInt
    iv.micros.toInt (by rw [abs_le]; omega) (by rw [abs_le]; omega) (by rw [abs_le]; omega)
  refine ⟨m, d, u, hjust, htotal, ?_⟩
  have hd := abs_lt.mp hjust.1
  simp only [justifyInterval, hok, i32TryFrom, bind, Except.bind,
    show -2 ^ 31 ≤ d ∧ d < 2 ^ 31 by omega, and_self, if_true]
  split_ifs <;> rfl

theorem Justified.months_eq (h : Justified months days micros) :
    ((months * 30 + days) * 86400000000 + micros).tdiv 2592000000000 = months := by
  have hspec := tdiv_tmod_spec ((months * 30 + days) * 86400000000 + micros)
    (d := 2592000000000) (by norm_num)
  simp only [Justified, abs_lt] at h
  omega

theorem Justified.unique {m d u : ℤ} (h : Justified months days micros) (h' : Justified m d u)
    (htotal : (m * 30 + d) * 86400000000 + u = (months * 30 + days) * 86400000000 + micros) :
    m = months ∧ d = days ∧ u = micros := by
  simp only [Justified, abs_lt] at h h'
  omega

/-- With a 32-bit count of whole months the result has the length of the argument, is below a
month and a day with one sign, and is its own; with a larger count it is an error. -/
theorem justify_interval_normal (iv : Interval) :
    if -2 ^ 31 ≤ (canonicalMicros iv).tdiv 2592000000000 ∧
        (canonicalMicros iv).tdiv 2592000000000 < 2 ^ 31 then
      ∃ jv, justifyInterval iv = .ok jv ∧ canonicalMicros jv = canonicalMicros iv ∧
        Justified jv.months.toInt jv.days.toInt jv.micros.toInt ∧ justifyInterval jv = .ok jv
    else justifyInterval iv = fieldOverflow "justify_interval" := by
  obtain ⟨m, d, u, hjust, htotal, heq⟩ := justifyInterval_eq iv
  rw [← htotal, hjust.months_eq, heq]
  split_ifs with hm
  · have hbounds := hjust
    simp only [Justified, abs_lt] at hbounds
    have hmi : (Int32.ofInt m).toInt = m := Int32.toInt_ofInt_of_le hm.1 hm.2
    have hdi : (Int32.ofInt d).toInt = d := Int32.toInt_ofInt_of_le (by omega) (by omega)
    have hui : (Int64.ofInt u).toInt = u := Int64.toInt_ofInt_of_le (by omega) (by omega)
    obtain ⟨m', d', u', hjust', htotal', heq'⟩ :=
      justifyInterval_eq ⟨.ofInt m, .ofInt d, .ofInt u⟩
    simp only [canonicalMicros, hmi, hdi, hui] at htotal'
    obtain ⟨rfl, rfl, rfl⟩ := hjust.unique hjust' htotal'
    exact ⟨_, rfl, by simp [canonicalMicros, hmi, hdi, hui], by simpa [hmi, hdi, hui] using hjust,
      by rw [heq', if_pos hm]⟩
  · rfl

/-! ## Shifts -/

def dateOf (day : ℤ) : Option Date :=
  if h : -4371587 ≤ day ∧ day ≤ 2932896 then some ⟨day, h⟩ else none

def civil (nanos : ℤ) : Option DateTime :=
  (dateOf (nanos / 86400000000000)).map fun d => ⟨d, (nanos % 86400000000000).toNat, by omega⟩

def dayOfMonth (d : Date) : ℤ := d.day - monthStart (monthOf d.day) + 1

/-- The day of the month is clamped to the month's length. -/
def addMonths (d : Date) (n : ℤ) : Option Date :=
  let k := monthOf d.day + n
  dateOf (monthStart k + min (dayOfMonth d) (monthLength k) - 1)

/-- A shift by `n` units of which a span holds at most `limit`. -/
def shift {α : Type} (limit n : ℤ) (value : String) (r : Option α) : Outcome α :=
  if |n| ≤ limit then r.elim (fieldOverflow value) .ok else .error .panic

def datePlusDays (d : Date) (days : ℤ) : Outcome Date :=
  shift 7304484 days (toString days) (dateOf (d.day + days))

def dateDiffDays (a b : Date) : ℤ := a.day - b.day

/-- A part of an interval that is zero is not added. -/
def advance {α : Type} (limit n : ℤ) (a : α) (r : Option α) : Outcome α :=
  if n = 0 then .ok a else shift limit n "interval arithmetic" r

def timestampPlusInterval (ts : DateTime) (iv : Interval) : Outcome DateTime := do
  let date ← advance 239976 iv.months.toInt ts.date (addMonths ts.date iv.months.toInt)
  let date ← advance 7304484 iv.days.toInt date (dateOf (date.day + iv.days.toInt))
  advance 631107417600000000 iv.micros.toInt ⟨date, ts.time⟩
    (civil (instant ⟨date, ts.time⟩ + iv.micros.toInt * 1000))

def timestampDiff (a b : DateTime) : Interval :=
  let total := (instant a - instant b).tdiv 1000
  ⟨0, .ofInt (total.tdiv 86400000000), .ofInt (total.tmod 86400000000)⟩

/-- `u` is `t` with the months added, then the days, then the microseconds. -/
def Later (iv : Interval) (t u : DateTime) : Prop :=
  ∃ d e : Date, monthOf d.day = monthOf t.date.day + iv.months.toInt ∧
    dayOfMonth d = min (dayOfMonth t.date) (monthLength (monthOf d.day)) ∧
    e.day = d.day + iv.days.toInt ∧ instant u = instant ⟨e, t.time⟩ + iv.micros.toInt * 1000

section Shifts

variable {d e : Date} {t u : DateTime} {n : ℤ}

theorem dateOf_eq_some : dateOf n = some d ↔ d.day = n := by
  obtain ⟨day, h⟩ := d
  unfold dateOf
  split_ifs with hn
  · simp [eq_comm]
  · simp only [false_iff]
    rintro rfl
    exact hn h

theorem civil_eq_some : civil n = some t ↔ instant t = n := by
  obtain ⟨d, nanos, h⟩ := t
  simp only [civil, map_eq_some_iff, dateOf_eq_some, instant, DateTime.mk.injEq,
    Time.mk.injEq]
  constructor
  · rintro ⟨_, hday, rfl, hnanos⟩
    omega
  · intro hn
    exact ⟨d, by omega, rfl, by omega⟩

theorem dayOfMonth_bounds (d : Date) :
    1 ≤ dayOfMonth d ∧ dayOfMonth d ≤ monthLength (monthOf d.day) := by
  have h := monthOf_spec d.day
  rw [monthStart_succ] at h
  unfold dayOfMonth
  omega

theorem addMonths_eq_some : addMonths d n = some e ↔ monthOf e.day = monthOf d.day + n ∧
    dayOfMonth e = min (dayOfMonth d) (monthLength (monthOf e.day)) := by
  have hd := dayOfMonth_bounds d
  have hlen := monthLength_bounds (monthOf d.day + n)
  rw [addMonths, dateOf_eq_some]
  constructor
  · intro he
    have hk : monthOf e.day = monthOf d.day + n := monthOf_eq (by omega) (by omega)
    exact ⟨hk, by rw [dayOfMonth, hk]; omega⟩
  · rintro ⟨hk, he⟩
    rw [dayOfMonth, hk] at he
    omega

theorem addMonths_zero (d : Date) : addMonths d 0 = some d := by
  simp [addMonths_eq_some, dayOfMonth_bounds]

theorem advance_eq {α : Type} {limit : ℤ} {a : α} {r : Option α} (hn : |n| ≤ limit)
    (h0 : n = 0 → r = some a) :
    advance limit n a r = r.elim (fieldOverflow "interval arithmetic") .ok := by
  unfold advance shift
  split_ifs with h
  · rw [h0 h]
    rfl
  · rfl

theorem timestampPlusInterval_eq {iv : Interval} (hm : |iv.months.toInt| ≤ 239976)
    (hd : |iv.days.toInt| ≤ 7304484) (hu : |iv.micros.toInt| ≤ 631107417600000000) :
    timestampPlusInterval t iv = ((addMonths t.date iv.months.toInt).bind fun d =>
      (dateOf (d.day + iv.days.toInt)).bind fun e =>
        civil (instant ⟨e, t.time⟩ + iv.micros.toInt * 1000)).elim
          (fieldOverflow "interval arithmetic") .ok := by
  rw [timestampPlusInterval, advance_eq hm fun h => by rw [h, addMonths_zero]]
  cases addMonths t.date iv.months.toInt with
  | none => rfl
  | some d =>
    change advance _ _ d _ >>= _ = _
    rw [advance_eq hd fun h => dateOf_eq_some.mpr (by omega)]
    cases he : dateOf (d.day + iv.days.toInt) with
    | none => simp [he, fieldOverflow, bind, Except.bind]
    | some e =>
      rw [bind_some, he]
      exact advance_eq hu fun h => civil_eq_some.mpr (by omega)

theorem timestampDiff_spec (a b : DateTime) (ha : 1000 ∣ a.time.nanos) (hb : 1000 ∣ b.time.nanos) :
    (timestampDiff a b).months = 0 ∧
    instant a = instant b + ((timestampDiff a b).days.toInt * 86400000000 +
      (timestampDiff a b).micros.toInt) * 1000 ∧
    |(timestampDiff a b).micros.toInt| < 86400000000 ∧
    (instant b ≤ instant a → 0 ≤ (timestampDiff a b).days.toInt ∧
      0 ≤ (timestampDiff a b).micros.toInt) ∧
    (instant a ≤ instant b → (timestampDiff a b).days.toInt ≤ 0 ∧
      (timestampDiff a b).micros.toInt ≤ 0) := by
  have hmicros := tdiv_tmod_spec (instant a - instant b) (d := 1000) (by norm_num)
  generalize htotal : (instant a - instant b).tdiv 1000 = total at hmicros
  have hdays := tdiv_tmod_spec total (d := 86400000000) (by norm_num)
  have hrange := And.intro a.date.in_range b.date.in_range
  have htime := And.intro a.time.in_range b.time.in_range
  unfold instant at hmicros ⊢
  have hd : (Int32.ofInt (total.tdiv 86400000000)).toInt = total.tdiv 86400000000 :=
    Int32.toInt_ofInt_of_le (by omega) (by omega)
  have hu : (Int64.ofInt (total.tmod 86400000000)).toInt = total.tmod 86400000000 :=
    Int64.toInt_ofInt_of_le (by omega) (by omega)
  simp only [timestampDiff, htotal, hd, hu, abs_lt, true_and]
  omega

/-- The difference of two timestamps of whole microseconds takes the one to the other; its parts
have one sign, and the difference the other way round is its negation. -/
theorem timestamp_diff_inverts (a b : DateTime) (ha : 1000 ∣ a.time.nanos)
    (hb : 1000 ∣ b.time.nanos) :
    (timestampDiff a b).months = 0 ∧ |(timestampDiff a b).micros.toInt| < 86400000000 ∧
    0 ≤ (timestampDiff a b).days.toInt * (timestampDiff a b).micros.toInt ∧
    timestampPlusInterval b (timestampDiff a b) = .ok a ∧
    (timestampDiff b a).months = -(timestampDiff a b).months ∧
    (timestampDiff b a).days.toInt = -(timestampDiff a b).days.toInt ∧
    (timestampDiff b a).micros.toInt = -(timestampDiff a b).micros.toInt := by
  obtain ⟨hmonths, hsum, hlt, hpos, hneg⟩ := timestampDiff_spec a b ha hb
  obtain ⟨hmonths', hsum', hlt', hpos', hneg'⟩ := timestampDiff_spec b a hb ha
  generalize timestampDiff a b = iv at *
  generalize timestampDiff b a = iv' at *
  have hrange := And.intro a.date.in_range b.date.in_range
  have htime := And.intro a.time.in_range b.time.in_range
  refine ⟨hmonths, hlt, ?_, ?_, by rw [hmonths, hmonths']; rfl, ?_, ?_⟩
  · rcases le_total (instant b) (instant a) with h | h
    · exact mul_nonneg (hpos h).1 (hpos h).2
    · exact mul_nonneg_of_nonpos_of_nonpos (hneg h).1 (hneg h).2
  · rw [abs_lt] at hlt
    unfold instant at hsum hpos hneg
    have hdate : -4371587 ≤ b.date.day + iv.days.toInt ∧ b.date.day + iv.days.toInt ≤ 2932896 := by
      omega
    rw [timestampPlusInterval_eq (by simp [hmonths]) (by rw [abs_le]; omega)
      (by rw [abs_le]; omega), hmonths, Int32.toInt_zero, addMonths_zero, bind_some,
      dateOf, dif_pos hdate, bind_some,
      (civil_eq_some (t := a)).mpr (by simp only [instant]; omega), elim_some]
  · rw [abs_lt] at hlt hlt'
    omega
  · rw [abs_lt] at hlt hlt'
    omega

theorem timestamp_diff_inverts_backwards :
    (timestampDiff ⟨⟨0, by decide⟩, 0, by decide⟩ ⟨⟨1, by decide⟩, 1000, by decide⟩).days = -1 ∧
      timestampPlusInterval ⟨⟨1, by decide⟩, 1000, by decide⟩
        (timestampDiff ⟨⟨0, by decide⟩, 0, by decide⟩ ⟨⟨1, by decide⟩, 1000, by decide⟩) =
        .ok ⟨⟨0, by decide⟩, 0, by decide⟩ :=
  ⟨by decide, (timestamp_diff_inverts ⟨⟨0, by decide⟩, 0, by decide⟩
    ⟨⟨1, by decide⟩, 1000, by decide⟩ (by decide) (by decide)).2.2.2.1⟩

end Shifts

end Crabgresql.Executor
