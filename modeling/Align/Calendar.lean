import Mathlib

/-! Day numbers and civil dates. The runtime cuts the calendar into eras of 400
years that start in March; here both of its maps are compared with each other and
with plain counting, year by year and month by month. -/
namespace Align.Time
open Option

def fitsI64 (n : Int) : Prop := -2 ^ 63 ≤ n ∧ n < 2 ^ 63

instance (n : Int) : Decidable (fitsI64 n) := inferInstanceAs (Decidable (_ ∧ _))

def toI64 (n : Int) : Option Int := if fitsI64 n then some n else none

def isLeap (year : Int) : Bool := year.tmod 4 == 0 && (year.tmod 100 != 0 || year.tmod 400 == 0)

def monthDays (year month : Int) : Option Int :=
  if month ∈ [1, 3, 5, 7, 8, 10, 12] then some 31
  else if month ∈ [4, 6, 9, 11] then some 30
  else if month = 2 then some (if isLeap year then 29 else 28)
  else none

/-- The years that reach it leave room for every intermediate result. -/
def civilDays (year month day : Int) : Option Int :=
  (monthDays year month).bind fun most =>
    if 1 ≤ day ∧ day ≤ most then
      let adjustedYear := year - (if month ≤ 2 then 1 else 0)
      let era := adjustedYear / 400
      let yearInEra := adjustedYear % 400
      let marchMonth := if 2 < month then month - 3 else month + 9
      let dayInYear := (153 * marchMonth + 2) / 5 + day - 1
      let dayInEra := yearInEra * 365 + yearInEra / 4 - yearInEra / 100 + dayInYear
      some (era * 146097 + dayInEra - 719468)
    else none

def civilDate (days : Int) : Option (Int × Int × Int) :=
  (toI64 (days + 719468)).bind fun shifted =>
    let era := shifted / 146097
    let within := shifted % 146097
    let yearInEra := (within - within / 1460 + within / 36524 - within / 146096) / 365
    let marchDay := within - (365 * yearInEra + yearInEra / 4 - yearInEra / 100)
    let marchMonth := (5 * marchDay + 2) / 153
    let day := marchDay - (153 * marchMonth + 2) / 5 + 1
    let month := if marchMonth < 10 then marchMonth + 3 else marchMonth - 9
    (toI64 (era * 400)).bind fun year =>
      (toI64 (year + yearInEra)).bind fun year =>
        (toI64 (year + if month ≤ 2 then 1 else 0)).map fun year => (year, month, day)

theorem toI64_fits (fits : fitsI64 n) : toI64 n = some n := if_pos fits

theorem toI64_iff : toI64 n = some m ↔ fitsI64 n ∧ m = n := by
  rw [toI64, ite_none_right_eq_some, Option.some.injEq, eq_comm]

/-! A day of an era, cut as the calendar cuts it: centuries, spans of four years,
years, days from the first of March. -/

structure EraDay (within century span year day : Int) : Prop where
  centuries : 0 ≤ century ∧ century ≤ 3
  spans : 0 ≤ span ∧ span ≤ 24
  years : 0 ≤ year ∧ year ≤ 3
  days : 0 ≤ day ∧ day ≤ 365
  leap : day = 365 → year = 3 ∧ (span = 24 → century = 3)
  sum : within = 36524 * century + 1461 * span + 365 * year + day

theorem eraDay_exists (within : Int) (low : 0 ≤ within) (high : within ≤ 146096) :
    ∃ century span year day, EraDay within century span year day := by
  obtain ⟨century, cut, rest⟩ : ∃ century, (0 ≤ century ∧ century ≤ 3) ∧
    0 ≤ within - 36524 * century ∧ within - 36524 * century ≤ 36524 ∧
      (within - 36524 * century = 36524 → century = 3) :=
    ⟨if within = 146096 then 3 else within / 36524, by split <;> omega, by split <;> omega⟩
  obtain ⟨left, named⟩ : ∃ left, left = within - 36524 * century := ⟨_, rfl⟩
  obtain ⟨span, spans, rest'⟩ : ∃ span, (0 ≤ span ∧ span ≤ 24) ∧
    0 ≤ left - 1461 * span ∧ left - 1461 * span ≤ 1460 ∧ (left - 1461 * span = 1460 → span = 24 → left = 36524) :=
    ⟨left / 1461, by omega, by omega⟩
  obtain ⟨least, named'⟩ : ∃ least, least = left - 1461 * span := ⟨_, rfl⟩
  refine ⟨century, span, if least = 1460 then 3 else least / 365,
    least - 365 * (if least = 1460 then 3 else least / 365), ⟨cut, spans, ?_, ?_, ?_, ?_⟩⟩
  · split <;> omega
  · split <;> omega
  · split <;> omega
  · omega

section Eras
variable {within century span year day : Int}

variable (cut : EraDay within century span year day)
include cut

theorem EraDay.year_range : 0 ≤ 100 * century + 4 * span + year ∧ 100 * century + 4 * span + year ≤ 399 := by
  rcases cut with ⟨centuries, spans, years, days, leap, sum⟩
  omega

theorem EraDay.yearInEra :
    (within - within / 1460 + within / 36524 - within / 146096) / 365 =
      100 * century + 4 * span + year := by
  rcases cut with ⟨centuries, spans, years, days, leap, sum⟩
  have eras : within / 146096 =
    if century = 3 ∧ span = 24 ∧ year = 3 ∧ day = 365 then 1 else 0 := by
    split <;> omega
  have hundreds : within / 36524 =
    century + if century = 3 ∧ span = 24 ∧ year = 3 ∧ day = 365 then 1 else 0 := by
    split <;> omega
  have fours : within / 1460 =
    25 * century + span + if 1460 ≤ 24 * century + span + 365 * year + day then 1 else 0 := by
    split <;> omega
  rw [eras, hundreds, fours]
  split <;> split <;> omega

theorem EraDay.marchDay :
    within - (365 * (100 * century + 4 * span + year) + (100 * century + 4 * span + year) / 4 -
      (100 * century + 4 * span + year) / 100) = day := by
  rcases cut with ⟨centuries, spans, years, days, leap, sum⟩
  omega

end Eras

theorem isLeap_iff (year : Int) :
    isLeap year = true ↔ year % 4 = 0 ∧ (year % 100 ≠ 0 ∨ year % 400 = 0) := by
  have zero : ∀ n : Int, year.tmod n = 0 ↔ year % n = 0 := fun n =>
    Int.dvd_iff_tmod_eq_zero.symm.trans Int.dvd_iff_emod_eq_zero
  rw [isLeap, Bool.and_eq_true, Bool.or_eq_true, beq_iff_eq, bne_iff_ne, beq_iff_eq, Ne, zero, zero, zero]

/-- The date of a day counted from the first of March of `year`. -/
def marchDate (year marchDay : Int) : Int × Int × Int :=
  let marchMonth := (5 * marchDay + 2) / 153
  let month := if marchMonth < 10 then marchMonth + 3 else marchMonth - 9
  (year + (if month ≤ 2 then 1 else 0), month, marchDay - (153 * marchMonth + 2) / 5 + 1)

theorem civilDate_cut (fits : fitsI64 (days + 719468))
    (cut : EraDay ((days + 719468) % 146097) century span year day) :
    civilDate days =
      some (marchDate ((days + 719468) / 146097 * 400 + (100 * century + 4 * span + year)) day) := by
  obtain ⟨shifted, named⟩ : ∃ shifted, shifted = days + 719468 := ⟨_, rfl⟩
  rw [← named] at fits cut ⊢
  have years := cut.year_range
  have eras : fitsI64 (shifted / 146097 * 400) ∧
    fitsI64 (shifted / 146097 * 400 + (100 * century + 4 * span + year)) := by
    rw [fitsI64] at fits
    rw [fitsI64, fitsI64]
    omega
  have last : ∀ month : Int, fitsI64 (shifted / 146097 * 400 + (100 * century + 4 * span + year) +
    (if month ≤ 2 then 1 else 0)) := by
    intro month
    rw [fitsI64] at fits ⊢
    split <;> omega
  rw [civilDate, ← named, toI64_fits fits, bind_some]
  dsimp only
  rw [cut.yearInEra, cut.marchDay, toI64_fits eras.1, bind_some, toI64_fits eras.2, bind_some,
    toI64_fits (last _), map_some]
  rfl

/-- The place of a month in a year that starts in March. -/
def marchMonth (month : Int) : Int := if 2 < month then month - 3 else month + 9

/-- The year, started in March, that a month belongs to. -/
def marchYear (year month : Int) : Int := year - (if month ≤ 2 then 1 else 0)

def marchDay (month day : Int) : Int := (153 * marchMonth month + 2) / 5 + day - 1

def monthLength (year month : Int) : Int :=
  if month = 2 then (if isLeap year then 29 else 28)
  else if month = 4 ∨ month = 6 ∨ month = 9 ∨ month = 11 then 30 else 31

theorem monthDays_iff :
    monthDays year month = some most ↔ (1 ≤ month ∧ month ≤ 12) ∧ most = monthLength year month := by
  rw [monthDays, monthLength]
  simp only [List.mem_cons, List.not_mem_nil, or_false]
  split_ifs
  all_goals
    simp only [Option.some.injEq, false_iff]
    omega

theorem marchMonth_marchDay (range : 1 ≤ month ∧ month ≤ 12) (low : 1 ≤ day)
    (high : day ≤ 31 ∧ (month = 4 ∨ month = 6 ∨ month = 9 ∨ month = 11 → day ≤ 30) ∧
      (month = 2 → day ≤ 29)) :
    (5 * marchDay month day + 2) / 153 = marchMonth month ∧ 0 ≤ marchDay month day ∧
      marchDay month day ≤ 365 ∧ (marchDay month day = 365 ↔ month = 2 ∧ day = 29) := by
  rw [marchDay, marchMonth]
  rcases range with ⟨first, last⟩
  interval_cases month <;> omega

theorem monthLength_most (high : day ≤ monthLength year month) :
    day ≤ 31 ∧ (month = 4 ∨ month = 6 ∨ month = 9 ∨ month = 11 → day ≤ 30) ∧
      (month = 2 → day ≤ 29) ∧ (month = 2 ∧ day = 29 → isLeap year = true) := by
  rw [monthLength] at high
  by_cases february : month = 2
  · by_cases leap : isLeap year = true
    · exact ⟨by omega, by omega, by omega, fun _ => leap⟩
    · rw [if_neg leap] at high
      omega
  · split at high <;> omega

theorem marchDay_months (low : 0 ≤ marchDay_) (high : marchDay_ ≤ 365) (year : Int) :
    ∃ month day, marchDate year marchDay_ = (year + (if month ≤ 2 then 1 else 0), month, day) ∧
      (1 ≤ month ∧ month ≤ 12) ∧ 1 ≤ day ∧ marchDay month day = marchDay_ ∧
      day ≤ 31 ∧ (month = 4 ∨ month = 6 ∨ month = 9 ∨ month = 11 → day ≤ 30) ∧
      (month = 2 → day ≤ 29) ∧ (month = 2 ∧ day = 29 → marchDay_ = 365) := by
  refine ⟨_, _, rfl, ?_⟩
  rw [marchDay, marchMonth]
  have first : 0 ≤ (5 * marchDay_ + 2) / 153 := by omega
  have last : (5 * marchDay_ + 2) / 153 ≤ 11 := by omega
  interval_cases here : (5 * marchDay_ + 2) / 153 <;> omega

section Dates
theorem civilDays_iff :
    civilDays year month day = some days ↔ (1 ≤ month ∧ month ≤ 12) ∧ 1 ≤ day ∧
      day ≤ monthLength year month ∧
      days = marchYear year month / 400 * 146097 +
        (marchYear year month % 400 * 365 + marchYear year month % 400 / 4 -
          marchYear year month % 400 / 100 + marchDay month day) - 719468 := by
  simp only [civilDays, bind_eq_some_iff, monthDays_iff, ite_none_right_eq_some, Option.some.injEq]
  constructor
  · rintro ⟨_, ⟨range, rfl⟩, inside, rfl⟩
    exact ⟨range, inside.1, inside.2, rfl⟩
  · rintro ⟨range, low, high, rfl⟩
    exact ⟨_, ⟨range, rfl⟩, ⟨low, high⟩, rfl⟩

theorem eraDay_date (range : 1 ≤ month ∧ month ≤ 12) (low : 1 ≤ day) (high : day ≤ monthLength year month) :
    EraDay (marchYear year month % 400 * 365 + marchYear year month % 400 / 4 -
        marchYear year month % 400 / 100 + marchDay month day)
      (marchYear year month % 400 / 100) (marchYear year month % 100 / 4)
      (marchYear year month % 4) (marchDay month day) := by
  rcases monthLength_most high with ⟨most, short, february, leap⟩
  rcases marchMonth_marchDay range low ⟨most, short, february⟩ with ⟨_, first, last, intercalary⟩
  refine ⟨by omega, by omega, by omega, ⟨first, last⟩, ?_, by omega⟩
  intro end_
  have date := intercalary.mp end_
  have leaps := (isLeap_iff _).mp (leap date)
  rw [marchYear, if_pos (by omega)]
  omega

theorem marchDate_date (range : 1 ≤ month ∧ month ≤ 12) (low : 1 ≤ day) (high : day ≤ monthLength year month) :
    marchDate (marchYear year month) (marchDay month day) = (year, month, day) := by
  rcases monthLength_most high with ⟨most, short, february, _⟩
  have place := (marchMonth_marchDay range low ⟨most, short, february⟩).1
  have back : (if marchMonth month < 10 then marchMonth month + 3 else marchMonth month - 9) = month := by
    rw [marchMonth]
    split <;> split <;> omega
  rw [marchDate, place, back, marchYear, marchDay]
  ext
  · omega
  · rfl
  · dsimp only
    omega

theorem civilDate_civilDays (read : civilDays year month day = some days)
    (fits : fitsI64 (days + 719468)) : civilDate days = some (year, month, day) := by
  rcases civilDays_iff.mp read with ⟨range, low, high, named⟩
  have cut := eraDay_date range low high
  obtain ⟨within, inside⟩ : ∃ within, within = marchYear year month % 400 * 365 +
    marchYear year month % 400 / 4 - marchYear year month % 400 / 100 + marchDay month day := ⟨_, rfl⟩
  rw [← inside] at cut named
  have bounds : 0 ≤ within ∧ within ≤ 146096 := by
    rcases cut with ⟨centuries, spans, years, days, leap, sum⟩
    omega
  have era : (days + 719468) / 146097 = marchYear year month / 400 := by omega
  have rest : (days + 719468) % 146097 = within := by omega
  rw [← rest] at cut
  have whole : marchYear year month / 400 * 400 + (100 * (marchYear year month % 400 / 100) +
    4 * (marchYear year month % 100 / 4) + marchYear year month % 4) = marchYear year month := by
    omega
  rw [civilDate_cut fits cut, era, whole, marchDate_date range low high]

theorem civilDays_civilDate (fits : fitsI64 (days + 719468)) :
    ∃ year month day, civilDate days = some (year, month, day) ∧ civilDays year month day = some days := by
  obtain ⟨within, inside⟩ : ∃ within, within = (days + 719468) % 146097 := ⟨_, rfl⟩
  obtain ⟨era, outside⟩ : ∃ era, era = (days + 719468) / 146097 := ⟨_, rfl⟩
  obtain ⟨century, span, inSpan, number, cut⟩ := eraDay_exists within (by omega) (by omega)
  rcases marchDay_months cut.days.1 cut.days.2 _ with
    ⟨month, day, date, range, low, same, most, short, february, leap⟩
  have found := civilDate_cut fits (inside ▸ cut)
  rw [← outside, date] at found
  refine ⟨_, month, day, found, ?_⟩
  have yearInEra := cut.year_range
  have high : day ≤ monthLength (era * 400 + (100 * century + 4 * span + inSpan) +
    (if month ≤ 2 then 1 else 0)) month := by
    rw [monthLength]
    by_cases isFebruary : month = 2
    · have bound := february isFebruary
      rw [if_pos isFebruary, if_pos (show month ≤ 2 by omega)]
      by_cases leaps : isLeap (era * 400 + (100 * century + 4 * span + inSpan) + 1) = true
      · rw [if_pos leaps]
        exact bound
      by_contra long
      have last := cut.leap (leap ⟨isFebruary, by omega⟩)
      have := cut.spans
      rw [isLeap_iff] at leaps
      omega
    · rw [if_neg isFebruary]
      split
      · rename_i isShort
        exact short isShort
      · exact most
  have year_ : marchYear (era * 400 + (100 * century + 4 * span + inSpan) +
    (if month ≤ 2 then 1 else 0)) month = era * 400 + (100 * century + 4 * span + inSpan) := by
    rw [marchYear]
    omega
  have eras : (era * 400 + (100 * century + 4 * span + inSpan)) / 400 = era := by omega
  have years : (era * 400 + (100 * century + 4 * span + inSpan)) % 400 =
    100 * century + 4 * span + inSpan := by omega
  rcases cut with ⟨centuries, spans, inSpans, numbers, _, sum⟩
  have quarters : (100 * century + 4 * span + inSpan) / 4 = 25 * century + span := by omega
  have hundreds : (100 * century + 4 * span + inSpan) / 100 = century := by omega
  refine civilDays_iff.mpr ⟨range, low, high, ?_⟩
  rw [year_, same, eras, years, quarters, hundreds]
  omega

end Dates

def yearLength (year : Nat) : Nat := if isLeap year then 366 else 365

/-- The days of all years before this one, from year 0 on. -/
def daysBefore : Nat → Nat
  | 0 => 0
  | year + 1 => daysBefore year + yearLength year

/-- The days of a year's months up to this one. -/
def monthsBefore (year : Nat) : Nat → Nat
  | 0 => 0
  | month + 1 => monthsBefore year month + (monthLength year (month + 1)).toNat

structure Date where
  year : Nat
  month : Nat
  day : Nat
  year_ok : year < 10000
  month_ok : 1 ≤ month ∧ month ≤ 12
  day_ok : 1 ≤ day ∧ (day : Int) ≤ monthLength year month

def Date.count (date : Date) : Nat :=
  daysBefore date.year + monthsBefore date.year (date.month - 1) + (date.day - 1)

def epoch : Date where
  year := 1970
  month := 1
  day := 1
  year_ok := by decide
  month_ok := by decide
  day_ok := by decide

/-- The days from the first of January 1970 on. -/
def Date.number (date : Date) : Int := (date.count : Int) - epoch.count

theorem leaps_through (year : Int) :
    (year + 3) / 4 - (year + 99) / 100 + (year + 399) / 400 + (if isLeap year then 1 else 0) =
      year / 4 - year / 100 + year / 400 + 1 := by
  have fours : (year + 3) / 4 = year / 4 + if year % 4 = 0 then 0 else 1 := by split <;> omega
  have hundreds : (year + 99) / 100 = year / 100 + if year % 100 = 0 then 0 else 1 := by split <;> omega
  have cycles : (year + 399) / 400 = year / 400 + if year % 400 = 0 then 0 else 1 := by split <;> omega
  rw [fours, hundreds, cycles, if_congr (isLeap_iff year) rfl rfl]
  split_ifs <;> omega

theorem daysBefore_eq (year : Nat) :
    (daysBefore year : Int) = 365 * year + ((year + 3) / 4 - (year + 99) / 100 + (year + 399) / 400) := by
  induction year with
  | zero => rfl
  | succ year ih =>
    have leaps := leaps_through year
    have turn : ((year : Int) + 1 + 3) / 4 - (year + 1 + 99) / 100 + (year + 1 + 399) / 400 =
      (year : Int) / 4 - year / 100 + year / 400 + 1 := by omega
    rw [daysBefore, yearLength, Nat.cast_add, ih, Nat.cast_succ, turn, ← leaps]
    split
    · omega
    · omega

theorem monthsBefore_eq (year : Nat) (range : 1 ≤ month ∧ month ≤ 12) :
    (monthsBefore year (month - 1) : Int) =
      (if month ≤ 2 then 31 * (month - 1 : Int)
      else (153 * (month - 3 : Int) + 2) / 5 + (59 + if isLeap year then 1 else 0)) := by
  have february : monthLength year 2 = 28 + if isLeap year then 1 else 0 := by
    rw [monthLength, if_pos rfl]
    split <;> rfl
  have others : ∀ other : Int, other ≠ 2 → monthLength year other =
    if other = 4 ∨ other = 6 ∨ other = 9 ∨ other = 11 then 30 else 31 := fun other not_ => if_neg not_
  rcases range with ⟨low, high⟩
  by_cases leap : isLeap year = true
  · rw [if_pos leap] at february ⊢
    interval_cases month <;> simp [monthsBefore, february, others]
  · rw [if_neg leap] at february ⊢
    interval_cases month <;> simp [monthsBefore, february, others]

theorem era_years (year : Int) :
    year / 400 * 146097 + (year % 400 * 365 + year % 400 / 4 - year % 400 / 100) =
      365 * year + (year / 4 - year / 100 + year / 400) := by
  have fours : year % 400 / 4 = year / 4 - 100 * (year / 400) := by omega
  have hundreds : year % 400 / 100 = year / 100 - 4 * (year / 400) := by omega
  omega

theorem marchDays_eq (year : Nat) (range : 1 ≤ month ∧ month ≤ 12) :
    (daysBefore year : Int) + monthsBefore year (month - 1) - 60 =
      marchYear year month / 400 * 146097 + (marchYear year month % 400 * 365 +
        marchYear year month % 400 / 4 - marchYear year month % 400 / 100) +
        (153 * marchMonth month + 2) / 5 := by
  rw [era_years, daysBefore_eq, monthsBefore_eq _ range, marchMonth, marchYear]
  by_cases winter : month ≤ 2
  · -- January and February belong to the March year before theirs.
    have turn : ((year : Int) - 1) / 4 - (year - 1) / 100 + (year - 1) / 400 + 1 =
      ((year : Int) + 3) / 4 - (year + 99) / 100 + (year + 399) / 400 := by omega
    have start : (153 * ((month : Int) + 9) + 2) / 5 = 31 * (month - 1) + 306 := by omega
    rw [if_pos winter, if_pos (by omega), if_neg (by omega), ← turn, start]
    ring
  · have late : ¬ (month : Int) ≤ 2 := by omega
    rw [if_neg winter, if_neg late, if_pos (Int.not_le.mp late), Int.sub_zero]
    linear_combination leaps_through year

theorem civilDays_number (date : Date) :
    civilDays date.year date.month date.day = some date.number := by
  rcases date with ⟨year, month, day, early, range, inside⟩
  have origin : epoch.count = 719528 := by
    have years : (daysBefore 1970 : Int) = 719528 := daysBefore_eq _
    have none_ : monthsBefore 1970 (epoch.month - 1) + (epoch.day - 1) = 0 := rfl
    rw [Date.count, show epoch.year = 1970 from rfl]
    omega
  have days : ((day - 1 : Nat) : Int) = day - 1 := by omega
  dsimp only
  refine civilDays_iff.mpr ⟨by omega, by omega, inside.2, ?_⟩
  rw [Date.number, origin, Date.count, marchDay]
  rw [Nat.cast_add, Nat.cast_add, days, Nat.cast_ofNat]
  linear_combination marchDays_eq _ range

end Align.Time
