import Align.TimeGrammar

/-! Parsing accepts exactly the texts of the grammar whose instant is in range, and
what formatting writes is such a text for the instant rounded down. -/
namespace Align.Time
open Numerals List Option

theorem parse_iff (bytes : Bytes) (kind instant : Int) :
    parse bytes kind = some instant ↔
      (∃ precision, resolution kind = some precision) ∧ bytes.length ≤ 35 ∧ bytes.all (· < 128) = true ∧
        ∃ fields rest days clock, parseDate kind bytes = some (fields, rest) ∧
          civilDays fields.year fields.month fields.day = some days ∧
          (∀ weekday, fields.weekday = some weekday → (weekday : Int) = (days + 4) % 7) ∧
          parseTime kind rest = some (clock, []) ∧ fitsI64 (days * dayNs + clock) ∧
          instant = days * dayNs + clock := by
  have named : ∀ (weekday : Option Nat) (days : Int),
      (¬ (weekday.any fun (weekday : Nat) => decide ((weekday : Int) ≠ (days + 4) % 7)) = true ↔
        ∀ named, weekday = some named → (named : Int) = (days + 4) % 7) := by
    intro weekday days
    cases weekday with
    | none => exact ⟨fun _ => nofun, fun _ => Bool.false_ne_true⟩
    | some weekday =>
      rw [any_some, decide_eq_true_iff, not_not]
      exact ⟨fun same _ is => Option.some.inj is ▸ same, fun each => each weekday rfl⟩
  simp only [parse, bind_eq_bind, bind_eq_some_iff, ite_none_left_eq_some, Prod.exists, named, not_or,
    not_not, Nat.not_lt, Bool.not_eq_true', Bool.not_eq_false, toI64_iff]
  constructor
  · rintro ⟨precision, known, ⟨short, plain⟩, fields, rest, isDate, days, isDay, weekday, clock, _, isTime, rfl, fits⟩
    exact ⟨⟨precision, known⟩, short, plain, fields, rest, days, clock, isDate, isDay, weekday, isTime, fits⟩
  · rintro ⟨⟨precision, known⟩, short, plain, fields, rest, days, clock, isDate, isDay, weekday, isTime, fits⟩
    exact ⟨precision, known, ⟨short, plain⟩, fields, rest, isDate, days, isDay, weekday, clock, [], isTime, rfl, fits⟩

theorem parse_sound (read : parse bytes kind = some instant) :
    Denotes kind bytes instant ∧ fitsI64 instant := by
  rcases (parse_iff _ _ _).mp read with
    ⟨⟨precision, known⟩, _, _, fields, rest, days, clock, isDate, isDay, isWeekday, isTime, fits, rfl⟩
  refine ⟨?_, fits⟩
  rw [parseDate] at isDate
  rw [parseTime] at isTime
  by_cases http : kind = 2
  · -- The HTTP date: the weekday's name is the one its number asks for.
    subst http
    rw [if_pos rfl, parseHttpDate_iff] at isDate
    rw [if_pos (by decide), parseClock_iff] at isTime
    rcases isDate with ⟨weekday, day, month, year, dayName, monthName, _, early, isName, isMonth, rfl, rfl⟩
    rcases isTime with ⟨time, tail, rfl, rfl, rfl⟩
    rcases date_of early isDay with ⟨date, rfl, isMonth_, rfl, rfl⟩
    have dayNamed : date.weekdayName = dayName := by
      rw [Date.weekdayName, ← isWeekday weekday rfl, Int.toNat_natCast, isName, getD_some]
    have monthNamed : date.monthName = monthName := by
      rw [Date.monthName, isMonth_, Nat.add_sub_cancel, isMonth, getD_some]
    have denoted := Denotes.http date time
    rw [Date.named, dayNamed, monthNamed] at denoted
    simp only [append_assoc] at denoted
    exact denoted
  · rw [if_neg http, parseIsoDate_iff] at isDate
    rcases isDate with ⟨year, month, day, lower, early, _, _, onlyZoned, rfl, rfl⟩
    rcases date_of early isDay with ⟨date, rfl, rfl, rfl, rfl⟩
    by_cases dateOnly : kind = 4
    · subst dateOnly
      cases isTime
      rw [Int.add_zero]
      exact (append_nil _) ▸ Denotes.day date
    · rw [if_pos dateOnly, parseClock_iff] at isTime
      rcases isTime with ⟨time, tail, rfl, closes⟩
      rw [if_pos dateOnly]
      by_cases zoned : kind < 2
      · rw [if_pos zoned] at closes
        rcases closes with ⟨fraction, zone, rfl, profile, rfl⟩
        have which : kind = 0 ∨ kind = 1 := by
          rcases resolution_kind known with is | is | is | is | is <;> omega
        have denoted := Denotes.zoned kind date lower time fraction zone
          (which.imp_right fun millis => ⟨millis, profile millis⟩)
        have below : kind < 3 := by omega
        rw [if_pos zoned, if_pos below, append_nil]
        exact denoted
      · have isBasic : kind = 3 := by
          rcases resolution_kind known with is | is | is | is | is <;> omega
        have upper : lower = false := Bool.eq_false_iff.mpr fun is => zoned (onlyZoned is)
        subst isBasic upper
        rcases closes with ⟨rfl, rfl⟩
        have denoted := Denotes.basic date time
        exact denoted

/-! The other way round: every text of the grammar is short, plain and accepted. -/

theorem digits_plain (ds : List Nat) (small : ∀ d ∈ ds, d < 10) :
    (ds.map digit).all (· < 128) = true := by
  apply List.all_eq_true.mpr
  intro b mem
  rcases List.mem_map.mp mem with ⟨d, digit_, rfl⟩
  have plain : ∀ d < 10, decide (digit d < 128) = true := by decide
  exact plain d (small d digit_)

theorem decimal_plain (width n : Nat) : (decimal width n).all (· < 128) = true :=
  digits_plain _ (fixed_digits _ _ n (by decide))

theorem Date.weekday_listed (date : Date) :
    weekdays[((date.number + 4) % 7).toNat]? = some date.weekdayName := by
  have inside : ((date.number + 4) % 7).toNat < weekdays.length := by
    have seven : weekdays.length = 7 := rfl
    omega
  rw [Date.weekdayName, getElem?_eq_getElem inside, getD_some]

theorem Date.month_listed (date : Date) : months[date.month - 1]? = some date.monthName := by
  have range := date.month_ok
  have inside : date.month - 1 < months.length := by
    have twelve : months.length = 12 := rfl
    omega
  rw [Date.monthName, getElem?_eq_getElem inside, getD_some]

theorem Zone.length (zone : Zone) : zone.text.length ≤ 6 := by
  cases zone with
  | utc lower => cases lower <;> decide
  | offset behind hour minute inside known =>
    rw [Zone.text, length_append, length_append, length_append, decimal_length, decimal_length]
    cases behind <;> decide

theorem Zone.plain (zone : Zone) : zone.text.all (· < 128) = true := by
  cases zone with
  | utc lower => cases lower <;> decide
  | offset behind hour minute inside known =>
    rw [Zone.text, all_append, all_append, all_append, decimal_plain, decimal_plain]
    cases behind <;> decide

theorem Fraction.length (fraction : Fraction) : fraction.text.length ≤ 10 := by
  have short := fraction.short
  rw [Fraction.text]
  split
  · exact Nat.zero_le _
  · rw [length_append, length_map, show (ascii ".").length = 1 from rfl]
    omega

theorem Fraction.plain (fraction : Fraction) : fraction.text.all (· < 128) = true := by
  rw [Fraction.text]
  split
  · rfl
  · rw [all_append, digits_plain _ fraction.small]
    decide

theorem denotes_text (denotes : Denotes kind bytes instant) :
    bytes.length ≤ 35 ∧ bytes.all (· < 128) = true := by
  cases denotes with
  | zoned kind date lower clock fraction zone profile =>
    have part := fraction.length
    have offset := zone.length
    have mark : (if lower = true then ascii "t" else ascii "T").length = 1 := by cases lower <;> rfl
    have plainMark : (if lower = true then ascii "t" else ascii "T").all (· < 128) = true := by
      cases lower <;> decide
    constructor
    · simp only [Date.text, Clock.text, length_append, decimal_length, mark,
        show (ascii "-").length = 1 from rfl, show (ascii ":").length = 1 from rfl]
      omega
    · simp only [Date.text, Clock.text, all_append, decimal_plain, plainMark, fraction.plain, zone.plain,
        Bool.true_and, Bool.and_true]
      decide
  | http date clock =>
    have dayName := names_length (by decide) date.weekday_listed
    have monthName := names_length (by decide) date.month_listed
    have plainDay : date.weekdayName.all (· < 128) = true :=
      (by decide : ∀ text ∈ weekdays, text.all (· < 128) = true) _
        (mem_of_getElem? date.weekday_listed)
    have plainMonth : date.monthName.all (· < 128) = true :=
      (by decide : ∀ text ∈ months, text.all (· < 128) = true) _ (mem_of_getElem? date.month_listed)
    constructor
    · simp only [Date.named, Clock.text, length_append, decimal_length, dayName, monthName]
      decide
    · simp only [Date.named, Clock.text, all_append, decimal_plain, plainDay, plainMonth, Bool.true_and,
        Bool.and_true]
      decide
  | basic date clock =>
    simp only [Date.text, Clock.text, length_append, all_append, decimal_length, decimal_plain]
    decide
  | day date =>
    simp only [Date.text, length_append, all_append, decimal_length, decimal_plain]
    decide

theorem Date.fields_small (date : Date) : date.year < 10000 ∧ date.month < 100 ∧ date.day < 100 := by
  have range := date.month_ok
  have most := (monthLength_most date.day_ok.2).1
  have early := date.year_ok
  omega

def Date.fields (date : Date) (weekday : Option Nat) : DateFields :=
  { weekday, year := date.year, month := date.month, day := date.day }

theorem parse_complete (denotes : Denotes kind bytes instant)
    (fits : fitsI64 instant) : parse bytes kind = some instant := by
  rcases denotes_text denotes with ⟨short, plain⟩
  rw [parse_iff]
  cases denotes with
  | zoned kind date lower clock fraction zone profile =>
    rcases date.fields_small with ⟨early, twelve, most⟩
    have which : kind = 0 ∨ kind = 1 := profile.imp_right And.left
    have known : ∃ precision, resolution kind = some precision := by
      rcases which with rfl | rfl
      · exact ⟨_, rfl⟩
      · exact ⟨_, rfl⟩
    have zoned : kind < 2 := by omega
    have below : kind < 3 := by omega
    have timed : kind ≠ 4 := by omega
    refine ⟨known, short, plain, date.fields none, clock.text (ascii ":") ++ (fraction.text ++ zone.text), _, _, ?_,
      civilDays_number _, nofun, ?_, fits, rfl⟩
    · rw [parseDate, if_neg (by omega), parseIsoDate_iff]
      refine ⟨date.year, date.month, date.day, lower, early, twelve, most, fun _ => zoned, ?_, rfl⟩
      rw [if_pos zoned, if_pos timed]
      simp only [Date.text, append_assoc]
    · rw [parseTime, if_pos timed, parseClock_iff, if_pos below]
      refine ⟨clock, _, rfl, ?_⟩
      rw [if_pos zoned]
      exact ⟨fraction, zone, by rw [append_nil],
        fun millis => profile.elim (fun zero => by omega) And.right, rfl⟩
  | http date clock =>
    rcases date.fields_small with ⟨early, _, most⟩
    have range := date.month_ok
    refine ⟨⟨_, rfl⟩, short, plain, date.fields (some ((date.number + 4) % 7).toNat),
      clock.text (ascii ":") ++ ascii " GMT", _, _, ?_, civilDays_number _, ?_, ?_, fits, rfl⟩
    · rw [parseDate, if_pos rfl, parseHttpDate_iff]
      refine ⟨((date.number + 4) % 7).toNat, date.day, date.month - 1, date.year, date.weekdayName,
        date.monthName, most, early, date.weekday_listed, date.month_listed, ?_, ?_⟩
      · simp only [Date.named, append_assoc]
      · rw [Nat.sub_add_cancel range.1]
        rfl
    · intro weekday named
      rw [← Option.some.inj named]
      omega
    · rw [parseTime, if_pos (by decide), parseClock_iff]
      exact ⟨clock, ascii " GMT", rfl, (append_nil _).symm, rfl⟩
  | basic date clock =>
    rcases date.fields_small with ⟨early, twelve, most⟩
    refine ⟨⟨_, rfl⟩, short, plain, date.fields none, clock.text [] ++ ascii "Z", _, _, ?_, civilDays_number _, nofun,
      ?_, fits, rfl⟩
    · rw [parseDate, if_neg (by decide), parseIsoDate_iff]
      refine ⟨date.year, date.month, date.day, false, early, twelve, most, nofun, ?_, rfl⟩
      simp only [Date.text, append_assoc]
      rfl
    · rw [parseTime, if_pos (by decide), parseClock_iff]
      exact ⟨clock, ascii "Z", rfl, (append_nil _).symm, rfl⟩
  | day date =>
    rcases date.fields_small with ⟨early, twelve, most⟩
    have sum : date.number * dayNs = date.number * dayNs + 0 := (Int.add_zero _).symm
    rw [sum] at fits ⊢
    refine ⟨⟨_, rfl⟩, short, plain, date.fields none, [], _, _, ?_, civilDays_number _, nofun, rfl, fits, rfl⟩
    rw [parseDate, if_neg (by decide), parseIsoDate_iff]
    refine ⟨date.year, date.month, date.day, false, early, twelve, most, nofun, ?_, rfl⟩
    simp only [Date.text]
    exact congrArg _ (congrArg _ (append_nil _).symm)

end Align.Time
