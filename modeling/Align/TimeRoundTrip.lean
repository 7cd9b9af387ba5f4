import Align.TimeExact

/-! What formatting writes. The digits it pushes are the fields' decimal texts, the
trailing zeros of a fraction are cut off without changing its value, and the whole
text denotes the instant rounded down to the format's resolution. -/
namespace Align.Time
open Numerals List Option

theorem push_iff (text value out : Bytes) :
    push text value = some out ↔ text.length + value.length ≤ 32 ∧ text ++ value = out := by
  rw [push, ite_none_right_eq_some, Option.some.injEq]

theorem writeDigits_eq (width n : Nat) (tail : Bytes) :
    writeDigits width n tail = (decimal width n ++ tail, n / 10 ^ width) := by
  induction width generalizing n tail with
  | zero => rw [pow_zero, Nat.div_one]; rfl
  | succ width ih =>
    rw [writeDigits, ih, decimal, decimal, fixed, map_append, append_assoc, Nat.div_div_eq_div_mul,
      ← pow_succ']
    rfl

theorem pushDigits_iff (width : Nat) (text out : Bytes) (value : Int) :
    pushDigits width text value = some out ↔ (0 ≤ value ∧ value < 2 ^ 32) ∧
      ¬ 32 < text.length + width ∧ value.toNat < 10 ^ width ∧
      text ++ decimal width value.toNat = out := by
  simp only [pushDigits, writeDigits_eq, ite_none_left_eq_some, not_not, append_nil, Option.some.injEq,
    Nat.div_eq_zero_iff_lt (Nat.pow_pos (show 0 < 10 by decide))]

/-- The digits that are left of a fraction. -/
def trimmed (ds : List Nat) : List Nat := ds.rdropWhile (· == 0)

theorem trimZeros_digits (front : Bytes) (inside : start < front.length)
    (stop : front.getLast? ≠ some 48) (small : ∀ d ∈ ds, d < 10) :
    trimZeros start (front ++ ds.map digit) = front ++ (trimmed ds).map digit := by
  induction ds using List.reverseRecOn with
  | nil =>
    have still : ¬ (start < (front ++ ([] : List Nat).map digit).length ∧
      (front ++ ([] : List Nat).map digit).getLast? = some 48) := by
      rw [map_nil, append_nil]
      exact fun bad => stop bad.2
    rw [trimZeros, if_neg still]
    rfl
  | append_singleton ds d ih =>
    have last : (front ++ (ds ++ [d]).map digit).getLast? = some (digit d) := by
      rw [map_append, ← append_assoc]
      exact getLast?_concat
    have rest : (front ++ (ds ++ [d]).map digit).dropLast = front ++ ds.map digit := by
      rw [map_append, ← append_assoc]
      exact dropLast_concat
    have long : start < (front ++ (ds ++ [d]).map digit).length := by
      rw [length_append]
      omega
    have zero : digit d = 48 ↔ d = 0 := by
      have table : ∀ d < 10, (digit d = 48 ↔ d = 0) := by decide
      exact table d (small d (mem_append_right _ (mem_singleton_self d)))
    rw [trimZeros, last, trimmed, rdropWhile_concat]
    by_cases isZero : d = 0
    · rw [if_pos ⟨long, congrArg some (zero.mpr isZero)⟩, rest, if_pos (beq_iff_eq.mpr isZero)]
      exact ih fun e mem => small e (mem_append_left _ mem)
    · rw [if_neg fun bad => isZero (zero.mp (Option.some.inj bad.2)),
        if_neg fun same => isZero (beq_iff_eq.mp same)]

theorem trimmed_front (ds : List Nat) : trimmed ds <+: ds := List.rdropWhile_prefix (· == 0) ds

theorem value_trimmed (ds : List Nat) :
    value 10 0 ds = value 10 0 (trimmed ds) * 10 ^ (ds.length - (trimmed ds).length) := by
  induction ds using List.reverseRecOn with
  | nil => rfl
  | append_singleton ds d ih =>
    rw [trimmed, rdropWhile_concat]
    by_cases isZero : d = 0
    · have shorter := (trimmed_front ds).length_le
      rw [if_pos (beq_iff_eq.mpr isZero), value_append, length_append, length_singleton]
      rw [show ds.length + 1 - (ds.rdropWhile (· == 0)).length = ds.length - (trimmed ds).length + 1 by
        rw [trimmed] at shorter ⊢
        omega, pow_succ, ← Nat.mul_assoc]
      rw [trimmed] at ih
      rw [trimmed, ← ih, isZero]
      rfl
    · rw [if_neg fun same => isZero (beq_iff_eq.mp same), Nat.sub_self, pow_zero, Nat.mul_one]

theorem formatFraction_some (wrote : formatFraction kind part out = some text)
    (millis : kind = 1 → part % 1000000 = 0) :
    ∃ fraction : Fraction, text = out ++ fraction.text ∧ (fraction.nanos : Int) = part ∧
      (kind = 1 → fraction.digits.length = 3) := by
  rw [formatFraction] at wrote
  split_ifs at wrote with isMillis some_
  · simp only [bind_eq_bind, bind_eq_some_iff, push_iff, pushDigits_iff] at wrote
    rcases wrote with ⟨_, ⟨_, rfl⟩, ⟨low, _⟩, _, small, rfl⟩
    obtain ⟨n, number⟩ : ∃ n, n = (part / 1000000).toNat := ⟨_, rfl⟩
    rw [← number] at small ⊢
    have three : (fixed 10 3 n).length = 3 := fixed_length _ 3 n
    have filled : fixed 10 3 n ≠ [] := ne_nil_of_length_pos (by omega)
    refine ⟨⟨fixed 10 3 n, by omega, fixed_digits _ 3 n (by decide)⟩, ?_, ?_, fun _ => three⟩
    · rw [Fraction.text, if_neg filled, append_assoc]
      rfl
    · rw [Fraction.nanos]
      dsimp only
      rw [three, value_fixed, Nat.mod_eq_of_lt small]
      omega
  · simp only [bind_eq_bind, bind_eq_some_iff, push_iff, pushDigits_iff] at wrote
    rcases wrote with ⟨_, ⟨_, rfl⟩, _, ⟨⟨low, _⟩, _, small, rfl⟩, wrote⟩
    obtain ⟨n, number⟩ : ∃ n, n = part.toNat := ⟨_, rfl⟩
    rw [← number] at small wrote
    have digits9 := fixed_digits 10 9 n (by decide)
    have nine : (fixed 10 9 n).length = 9 := fixed_length _ 9 n
    have number_ : value 10 0 (fixed 10 9 n) = n := by rw [value_fixed, Nat.mod_eq_of_lt small]
    have cut := trimZeros_digits (out ++ ascii ".") (by
      rw [length_append]
      exact Nat.lt_add_one _) (by
      rw [show ascii "." = [46] by decide, getLast?_concat]
      decide) digits9
    have trimmed_ := value_trimmed (fixed 10 9 n)
    rw [nine, number_] at trimmed_
    have left : trimmed (fixed 10 9 n) ≠ [] := by
      intro empty
      rw [empty] at trimmed_
      have zero : n = 0 := trimmed_.trans (Nat.zero_mul _)
      omega
    have shorter := (trimmed_front (fixed 10 9 n)).length_le
    refine ⟨⟨trimmed (fixed 10 9 n), by omega,
      fun d mem => digits9 d ((trimmed_front _).subset mem)⟩, ?_, ?_,
      fun absurd_ => absurd absurd_ isMillis⟩
    · rw [Fraction.text, if_neg left, ← append_assoc, ← cut]
      exact (Option.some.inj wrote).symm
    · rw [Fraction.nanos, ← trimmed_]
      omega
  · rw [not_not] at some_
    refine ⟨⟨[], by decide, by simp⟩, ?_, ?_, fun absurd_ => absurd absurd_ isMillis⟩
    · rw [Fraction.text, if_pos rfl, append_nil]
      exact (Option.some.inj wrote).symm
    · rw [some_, Fraction.nanos, show value 10 0 [] = 0 from rfl, Nat.zero_mul]
      rfl

theorem clock_of (inside : 0 ≤ within ∧ within < dayNs) :
    ∃ clock : Clock, (within / (3600 * second)).toNat = clock.hour ∧
      (within / (60 * second) % 60).toNat = clock.minute ∧ (within / second % 60).toNat = clock.second ∧
      clock.nanos + within % second = within := by
  obtain ⟨seconds, named⟩ : ∃ seconds, seconds = within / second := ⟨_, rfl⟩
  have hours : within / (3600 * second) = seconds / 3600 := by
    rw [named, second]
    omega
  have minutes : within / (60 * second) = seconds / 60 := by
    rw [named, second]
    omega
  have whole : second * seconds + within % second = within := by
    rw [named]
    exact Int.mul_ediv_add_emod within second
  have range : 0 ≤ seconds ∧ seconds < 86400 := by
    rw [dayNs, second] at inside
    rw [named, second]
    omega
  rw [hours, minutes, ← named]
  refine ⟨⟨(seconds / 3600).toNat, (seconds / 60 % 60).toNat, (seconds % 60).toNat, by omega⟩, rfl, rfl, rfl, ?_⟩
  have total : ((seconds / 3600).toNat : Int) * 3600 + (seconds / 60 % 60).toNat * 60 + (seconds % 60).toNat =
      seconds := by omega
  rw [Clock.nanos, total, Int.mul_comm]
  exact whole

theorem date_at (read : civilDate days = some (year, month, day))
    (low : 0 ≤ year) (early : year.toNat < 10000) :
    ∃ date : Date, year.toNat = date.year ∧ month = date.month ∧ day.toNat = date.day ∧ date.number = days := by
  have fits : fitsI64 (days + 719468) := by
    rw [civilDate] at read
    by_contra out
    rw [toI64, if_neg out] at read
    cases read
  rcases civilDays_civilDate fits with ⟨year', month', day', found, number⟩
  cases found.symm.trans read
  rcases civilDays_iff.mp number with ⟨range, least, high, _⟩
  have isYear : year = (year.toNat : Int) := by omega
  have isMonth : month = (month.toNat : Int) := by omega
  have isDay : day = (day.toNat : Int) := by omega
  rw [isYear, isMonth, isDay] at number
  rcases date_of early number with ⟨date, yearIs, monthIs, dayIs, numberIs⟩
  exact ⟨date, yearIs.symm, by omega, dayIs.symm, numberIs⟩

theorem format_some (wrote : format ns kind = some text) :
    ∃ precision days date, resolution kind = some precision ∧ fitsI64 (ns / precision * precision) ∧
      days = ns / precision * precision / dayNs ∧ civilDate days = some date ∧
      (if kind = 0 ∨ kind = 1 then
          formatDashed kind (civilAt date (ns / precision * precision % dayNs))
        else if kind = 2 then formatHttp days (civilAt date (ns / precision * precision % dayNs))
        else if kind = 3 ∨ kind = 4 then
          formatBasic kind (civilAt date (ns / precision * precision % dayNs))
        else none) = some text := by
  rw [format] at wrote
  simp only [bind_eq_bind, bind_eq_some_iff] at wrote
  rcases wrote with ⟨precision, known, rounded, inRange, days, isDays, date, found, wrote⟩
  rcases toI64_iff.mp inRange with ⟨fits, rfl⟩
  rcases toI64_iff.mp isDays with ⟨_, rfl⟩
  exact ⟨precision, _, date, known, fits, rfl, found, wrote⟩

theorem resolution_divides (known : resolution kind = some precision) :
    precision ∣ dayNs := by
  rcases resolution_kind known with rfl | rfl | rfl | rfl | rfl <;> cases known <;> decide

section Written
theorem formatDashed_denotes (zoned : kind = 0 ∨ kind = 1) (found : civilDate days = some (year, month, day))
    (inside : 0 ≤ within ∧ within < dayNs) (millis : kind = 1 → within % second % 1000000 = 0)
    (wrote : formatDashed kind (civilAt (year, month, day) within) = some text) :
    Denotes kind text (days * dayNs + within) := by
  simp only [formatDashed, civilAt, bind_eq_bind, bind_eq_some_iff, push_iff, pushDigits_iff] at wrote
  rcases wrote with ⟨_, ⟨⟨low, _⟩, _, early, rfl⟩, _, ⟨_, rfl⟩, _, ⟨_, _, _, rfl⟩, _, ⟨_, rfl⟩, _,
    ⟨_, _, _, rfl⟩, _, ⟨_, rfl⟩, _, ⟨_, _, _, rfl⟩, _, ⟨_, rfl⟩, _, ⟨_, _, _, rfl⟩, _, ⟨_, rfl⟩, _,
    ⟨_, _, _, rfl⟩, _, part, _, rfl⟩
  rcases date_at found low early with ⟨date, yearIs, rfl, dayIs, rfl⟩
  rcases clock_of inside with ⟨clock, hourIs, minuteIs, secondIs, time⟩
  rcases formatFraction_some part millis with ⟨fraction, shape, nanos, profile⟩
  have denoted := Denotes.zoned kind date false clock fraction (.utc false)
    (zoned.imp_right fun isMillis => ⟨isMillis, profile isMillis⟩)
  have sum : clock.nanos + fraction.nanos - (Zone.utc false).nanos = within := by
    rw [nanos, Zone.nanos, Int.sub_zero]
    exact time
  rw [sum, Date.text, Clock.text, if_neg Bool.false_ne_true] at denoted
  rw [shape, yearIs, dayIs, hourIs, minuteIs, secondIs, Int.toNat_natCast]
  simp only [append_assoc, nil_append] at denoted ⊢
  exact denoted

theorem formatHttp_denotes (found : civilDate days = some (year, month, day))
    (inside : 0 ≤ within ∧ within < dayNs) (whole : within % second = 0)
    (wrote : formatHttp days (civilAt (year, month, day) within) = some text) :
    Denotes 2 text (days * dayNs + within) := by
  rw [formatHttp] at wrote
  simp only [bind_eq_bind, bind_eq_some_iff] at wrote
  rcases wrote with ⟨dayName, isName, wrote⟩
  have later : 0 ≤ (civilAt (year, month, day) within).month - 1 := by
    by_contra bad
    rw [if_neg bad] at wrote
    cases wrote
  rw [if_pos later] at wrote
  simp only [civilAt, bind_eq_some_iff, push_iff, pushDigits_iff] at wrote
  rcases wrote with ⟨monthName, isMonth, _, ⟨_, rfl⟩, _, ⟨_, rfl⟩, _, ⟨_, _, _, rfl⟩, _, ⟨_, rfl⟩, _,
    ⟨_, rfl⟩, _, ⟨_, rfl⟩, _, ⟨⟨low, _⟩, _, early, rfl⟩, _, ⟨_, rfl⟩, _, ⟨_, _, _, rfl⟩, _, ⟨_, rfl⟩, _,
    ⟨_, _, _, rfl⟩, _, ⟨_, rfl⟩, _, ⟨_, _, _, rfl⟩, _, rfl⟩
  rcases date_at found low early with ⟨date, yearIs, rfl, dayIs, rfl⟩
  rcases clock_of inside with ⟨clock, hourIs, minuteIs, secondIs, time⟩
  have dayNamed : date.weekdayName = dayName :=
    Option.some.inj (date.weekday_listed.symm.trans isName)
  have monthNamed : date.monthName = monthName := by
    rw [show ((date.month : Int) - 1).toNat = date.month - 1 by omega] at isMonth
    exact Option.some.inj (date.month_listed.symm.trans isMonth)
  have denoted := Denotes.http date clock
  rw [whole, Int.add_zero] at time
  rw [time, Date.named, dayNamed, monthNamed, Clock.text] at denoted
  rw [yearIs, dayIs, hourIs, minuteIs, secondIs]
  simp only [append_assoc, nil_append] at denoted ⊢
  exact denoted

theorem formatBasic_denotes (basic : kind = 3 ∨ kind = 4)
    (found : civilDate days = some (year, month, day)) (inside : 0 ≤ within ∧ within < dayNs)
    (whole : kind = 3 → within % second = 0) (midnight : kind = 4 → within = 0)
    (wrote : formatBasic kind (civilAt (year, month, day) within) = some text) :
    Denotes kind text (days * dayNs + within) := by
  simp only [formatBasic, civilAt, bind_eq_bind, bind_eq_some_iff, pushDigits_iff] at wrote
  rcases wrote with ⟨_, ⟨⟨low, _⟩, _, early, rfl⟩, _, ⟨_, _, _, rfl⟩, _, ⟨_, _, _, rfl⟩, wrote⟩
  rcases date_at found low early with ⟨date, yearIs, rfl, dayIs, rfl⟩
  rw [yearIs, dayIs, Int.toNat_natCast] at wrote
  rcases basic with rfl | rfl
  · rw [if_pos rfl] at wrote
    simp only [bind_eq_some_iff, push_iff, pushDigits_iff] at wrote
    rcases wrote with ⟨_, ⟨_, rfl⟩, _, ⟨_, _, _, rfl⟩, _, ⟨_, _, _, rfl⟩, _, ⟨_, _, _, rfl⟩, _, rfl⟩
    rcases clock_of inside with ⟨clock, hourIs, minuteIs, secondIs, time⟩
    have denoted := Denotes.basic date clock
    rw [whole rfl, Int.add_zero] at time
    rw [time, Date.text, Clock.text] at denoted
    rw [hourIs, minuteIs, secondIs]
    exact denoted
  · have denoted := Denotes.day date
    cases wrote
    rw [midnight rfl, Int.add_zero]
    exact denoted

end Written

theorem format_denotes (wrote : format ns kind = some text) :
    ∃ precision, resolution kind = some precision ∧ fitsI64 (ns / precision * precision) ∧
      Denotes kind text (ns / precision * precision) := by
  rcases format_some wrote with ⟨precision, days, ⟨year, month, day⟩, known, fits, isDays, found, wrote⟩
  refine ⟨precision, known, fits, ?_⟩
  obtain ⟨rounded, named⟩ : ∃ rounded, rounded = ns / precision * precision := ⟨_, rfl⟩
  rw [← named] at isDays wrote ⊢
  obtain ⟨within, rest⟩ : ∃ within, within = rounded % dayNs := ⟨_, rfl⟩
  have whole : days * dayNs + within = rounded := by
    rw [isDays, rest]
    exact Int.ediv_mul_add_emod rounded dayNs
  have inside : 0 ≤ within ∧ within < dayNs := by
    rw [rest]
    exact ⟨Int.emod_nonneg _ (by decide), Int.emod_lt_of_pos _ (by decide)⟩
  -- Rounding leaves a multiple of the resolution inside the day as well.
  have exact_ : within % precision = 0 := by
    rw [rest, Int.emod_emod_of_dvd _ (resolution_divides known), named]
    exact Int.mul_emod_left _ _
  rw [← rest] at wrote
  rw [← whole]
  rcases resolution_kind known with rfl | rfl | rfl | rfl | rfl
  · exact formatDashed_denotes (Or.inl rfl) found inside (fun absurd_ => absurd absurd_ (by decide)) wrote
  · cases known
    refine formatDashed_denotes (Or.inr rfl) found inside (fun _ => ?_) wrote
    rw [Int.emod_emod_of_dvd _ (by decide)]
    exact exact_
  · cases known
    exact formatHttp_denotes found inside exact_ wrote
  · cases known
    exact formatBasic_denotes (Or.inl rfl) found inside (fun _ => exact_)
      (fun absurd_ => absurd absurd_ (by decide)) wrote
  · cases known
    refine formatBasic_denotes (Or.inr rfl) found inside (fun absurd_ => absurd absurd_ (by decide))
      (fun _ => ?_) wrote
    rw [Int.emod_eq_of_lt inside.1 inside.2] at exact_
    exact exact_

/-- Formatting and parsing are inverse down to the resolution, the two calendar maps are
inverse to each other and count days, and parsing accepts exactly the texts that denote
an instant in range, and returns it. -/
theorem timestamps_exact :
    (∀ ns kind text, fitsI64 ns → format ns kind = some text →
      ∃ precision, resolution kind = some precision ∧ parse text kind = some (ns / precision * precision)) ∧
    (∀ days, fitsI64 days → fitsI64 (days + 719468) →
      ∃ year month day, civilDate days = some (year, month, day) ∧ civilDays year month day = some days) ∧
    (∀ year month day days, civilDays year month day = some days → fitsI64 (days + 719468) →
      civilDate days = some (year, month, day)) ∧
    (∀ date : Date, civilDays date.year date.month date.day = some date.number) ∧
    (∀ bytes kind instant, parse bytes kind = some instant ↔
      Denotes kind bytes instant ∧ fitsI64 instant) := by
  refine ⟨?_, fun _ _ fits => civilDays_civilDate fits, fun _ _ _ _ => civilDate_civilDays, civilDays_number,
    fun _ _ _ => ⟨parse_sound, fun both => parse_complete both.1 both.2⟩⟩
  intro ns kind text _ wrote
  rcases format_denotes wrote with ⟨precision, known, fits, denotes⟩
  exact ⟨precision, known, parse_complete denotes fits⟩

theorem timestamps_exact_leapDay :
    ∃ precision, resolution 1 = some precision ∧
      parse (ascii "2000-02-29T00:00:00.123Z") 1 = some (951782400123456789 / precision * precision) :=
  timestamps_exact.1 951782400123456789 1 (ascii "2000-02-29T00:00:00.123Z") (by decide) (by decide)

end Align.Time
