import Align.TimeFormats

/-! What the texts denote. Each reader of the parser takes exactly the texts of its
field, so that parsing is the inverse of a grammar that names calendar dates, clock
times, fractions and zone offsets. -/
namespace Align.Time
open Numerals List Option

def decimal (width n : Nat) : Bytes := (fixed 10 width n).map digit

theorem decimal_length (width n : Nat) : (decimal width n).length = width := by
  rw [decimal, length_map, fixed_length]

def digitValue (b : UInt8) : Nat := b.toNat - 48

theorem digit_read (n : Nat) (small : n < 10) : isAsciiDigit (digit n) = true ∧ digitValue (digit n) = n := by
  revert n
  decide

theorem digit_of (ok : isAsciiDigit b = true) : digitValue b < 10 ∧ digit (digitValue b) = b := by
  simp only [isAsciiDigit, Bool.and_eq_true, decide_eq_true_iff, UInt8.le_iff_toNat_le] at ok
  have low : 48 ≤ b.toNat := ok.1
  have high : b.toNat ≤ 57 := ok.2
  rw [digit, digitValue, Nat.add_sub_cancel' low, UInt8.ofNat_toNat]
  exact ⟨by omega, rfl⟩

theorem map_back {xs : List α} {f : α → β} {g : β → α} {q : β → Prop} (back : ∀ x ∈ xs, q (f x) ∧ g (f x) = x) :
    (∀ y ∈ xs.map f, q y) ∧ (xs.map f).map g = xs := by
  constructor
  · exact List.forall_mem_map.mpr fun x inside => (back x inside).1
  · rw [List.map_map]
    exact (map_congr_left fun x inside => (back x inside).2).trans (List.map_id xs)

theorem digits_values (ds : List Nat) (small : ∀ d ∈ ds, d < 10) :
    (∀ b ∈ ds.map digit, isAsciiDigit b = true) ∧ (ds.map digit).map digitValue = ds :=
  map_back fun d inside => digit_read d (small d inside)

theorem values_digits {text : Bytes} (ok : ∀ b ∈ text, isAsciiDigit b = true) :
    (∀ d ∈ text.map digitValue, d < 10) ∧ (text.map digitValue).map digit = text :=
  map_back fun b inside => digit_of (ok b inside)

theorem foldlM_digits (input : Bytes) (start : Nat) :
    input.foldlM (fun value b =>
        if isAsciiDigit b then some (value * 10 + (b.toNat - 48)) else none) start =
      if input.all isAsciiDigit then some (value 10 start (input.map digitValue)) else none := by
  induction input generalizing start with
  | nil => rfl
  | cons b input ih =>
    rw [foldlM_cons, map_cons, all_cons]
    cases isAsciiDigit b with
    | true => exact ih _
    | false => rfl

variable (width n : Nat) (input rest : Bytes)

theorem digits_iff :
    digits width input = some (n, rest) ↔ n < 10 ^ width ∧ input = decimal width n ++ rest := by
  rw [digits, ite_none_left_eq_some, map_eq_some_iff, foldlM_digits]
  simp only [ite_none_right_eq_some, List.all_eq_true, Option.some.injEq, Prod.mk.injEq]
  constructor
  · rintro ⟨long, _, ⟨ok, rfl⟩, rfl, rfl⟩
    have length : ((input.take width).map digitValue).length = width := by
      rw [length_map, length_take]
      omega
    rcases values_digits ok with ⟨small, back⟩
    have bound := value_lt _ _ small
    have same := fixed_value _ _ small
    rw [length] at bound same
    refine ⟨bound, ?_⟩
    rw [decimal, same, back, take_append_drop]
  · rintro ⟨small, rfl⟩
    rcases digits_values _ (fixed_digits _ _ n (by decide)) with ⟨ok, back⟩
    rw [take_left' (decimal_length _ n), drop_left' (decimal_length _ n), length_append,
      decimal_length]
    refine ⟨by omega, n, ⟨ok, ?_⟩, rfl, rfl⟩
    rw [decimal, back, value_fixed, Nat.mod_eq_of_lt small]

theorem literal_iff (expected input rest : Bytes) :
    literal expected input = some rest ↔ input = expected ++ rest := by
  rw [literal, ite_none_left_eq_some, ite_none_left_eq_some, not_not, Option.some.injEq]
  constructor
  · rintro ⟨_, same, rfl⟩
    conv_lhs => rw [← take_append_drop expected.length input, same]
  · rintro rfl
    rw [length_append]
    exact ⟨by omega, take_left, drop_left⟩

theorem mark_iff (has : Prop) [Decidable has] (expected input rest : Bytes) :
    mark has expected input = some rest ↔ input = (if has then expected else []) ++ rest := by
  rw [mark]
  split
  · exact literal_iff _ _ _
  · rw [Option.some.injEq, nil_append]

theorem name_iff (text rest : Bytes) :
    name width input = some (text, rest) ↔ text.length = width ∧ input = text ++ rest := by
  rw [name, ite_none_left_eq_some, Option.some.injEq, Prod.mk.injEq]
  constructor
  · rintro ⟨long, rfl, rfl⟩
    exact ⟨by rw [length_take]; omega, (take_append_drop width input).symm⟩
  · rintro ⟨rfl, rfl⟩
    rw [length_append]
    exact ⟨by omega, take_left, drop_left⟩

theorem nameIndex_iff (distinct : (arms.map Prod.fst).Nodup) (text : Bytes)
    (k : Nat) : nameIndex arms text = some k ↔ (text, k) ∈ arms := by
  induction arms with
  | nil => exact ⟨nofun, nofun⟩
  | cons arm arms ih =>
    rcases arm with ⟨first, index⟩
    rw [map_cons, nodup_cons] at distinct
    rw [nameIndex, mem_cons, Prod.mk.injEq]
    by_cases same : text = first
    · have later : (text, k) ∉ arms := by
        intro mem
        have named : text ∈ arms.map Prod.fst := List.mem_map_of_mem mem
        rw [same] at named
        exact distinct.1 named
      rw [if_pos same, Option.some.injEq]
      exact ⟨fun here => Or.inl ⟨same, here.symm⟩, fun either => either.elim (fun here => here.2.symm)
        fun mem => absurd mem later⟩
    · rw [if_neg same, ih distinct.2]
      exact ⟨Or.inr, fun either => either.elim (fun here => absurd here.1 same) id⟩

theorem weekdayIndex_iff (text : Bytes) (k : Nat) :
    weekdayIndex text = some k ↔ weekdays[k]? = some text := by
  rw [weekdayIndex, nameIndex_iff (by decide)]
  exact @mem_zipIdx_iff_getElem? _ (text, k) weekdays

theorem monthIndex_iff (text : Bytes) (k : Nat) : monthIndex text = some k ↔ months[k]? = some text := by
  rw [monthIndex, nameIndex_iff (by decide)]
  exact @mem_zipIdx_iff_getElem? _ (text, k) months

theorem names_length {names : List Bytes} {k : Nat} (all : ∀ name ∈ names, name.length = 3)
    (there : names[k]? = some text) : text.length = 3 :=
  all text (mem_of_getElem? there)

structure Clock where
  hour : Nat
  minute : Nat
  second : Nat
  inside : hour ≤ 23 ∧ minute ≤ 59 ∧ second ≤ 59

def Clock.nanos (clock : Clock) : Int :=
  (clock.hour * 3600 + clock.minute * 60 + clock.second) * Time.second

/-- The part of a second, by its digits; without digits there is no point either. -/
structure Fraction where
  digits : List Nat
  short : digits.length ≤ 9
  small : ∀ d ∈ digits, d < 10

def Fraction.text (fraction : Fraction) : Bytes :=
  if fraction.digits = [] then [] else ascii "." ++ fraction.digits.map digit

def Fraction.nanos (fraction : Fraction) : Nat :=
  value 10 0 fraction.digits * 10 ^ (9 - fraction.digits.length)

/-- UTC itself, or a known offset from it. -/
inductive Zone where
  | utc (lower : Bool)
  | offset (behind : Bool) (hour minute : Nat) (inside : hour ≤ 23 ∧ minute ≤ 59)
      (known : behind = true → ¬ (hour = 0 ∧ minute = 0))

def Zone.text : Zone → Bytes
  | .utc lower => if lower then ascii "z" else ascii "Z"
  | .offset behind hour minute _ _ =>
      (if behind then ascii "-" else ascii "+") ++ (decimal 2 hour ++ (ascii ":" ++ decimal 2 minute))

/-- What the zone's clocks are ahead of UTC. -/
def Zone.nanos : Zone → Int
  | .utc _ => 0
  | .offset behind hour minute _ _ =>
      if behind then -((hour * 3600 + minute * 60) * second) else (hour * 3600 + minute * 60) * second

theorem fractionDigits_eq (start count : Nat) (room : count ≤ 9) :
    fractionDigits input start count =
      if count + (input.takeWhile isAsciiDigit).length ≤ 9 then
        some ((value 10 start ((input.takeWhile isAsciiDigit).map digitValue),
          count + (input.takeWhile isAsciiDigit).length), input.dropWhile isAsciiDigit)
      else none := by
  induction input generalizing start count with
  | nil => exact (if_pos room).symm
  | cons b input ih =>
    rw [fractionDigits]
    by_cases ok : isAsciiDigit b = true
    · rw [if_pos ok, takeWhile_cons_of_pos ok, dropWhile_cons_of_pos ok, length_cons]
      by_cases full : count = 9
      · rw [if_pos full, if_neg (by omega)]
      · rw [if_neg full, ih _ _ (by omega), Nat.add_assoc count 1, Nat.add_comm 1]
        rfl
    · rw [if_neg ok, takeWhile_cons_of_neg ok, dropWhile_cons_of_neg ok]
      exact (if_pos room).symm

theorem foldl_tens (count n : Nat) :
    (List.range count).foldl (fun fraction _ => fraction * 10) n = n * 10 ^ count := by
  induction count with
  | zero => rw [range_zero, foldl_nil, pow_zero, Nat.mul_one]
  | succ count ih =>
    rw [range_succ, foldl_append, ih, foldl_cons, foldl_nil, pow_succ, Nat.mul_assoc]

theorem fractionDigits_iff (n total : Nat) :
    fractionDigits input 0 0 = some ((n, total), rest) ↔
      ∃ ds : List Nat, (∀ d ∈ ds, d < 10) ∧ input = ds.map digit ++ rest ∧ n = value 10 0 ds ∧
        total = ds.length ∧ total ≤ 9 ∧ ∀ b, rest.head? = some b → isAsciiDigit b = false := by
  rw [fractionDigits_eq _ _ _ (by decide), ite_none_right_eq_some, Nat.zero_add, Option.some.injEq,
    Prod.mk.injEq, Prod.mk.injEq]
  constructor
  · rintro ⟨short, ⟨rfl, rfl⟩, rfl⟩
    rcases values_digits fun b => mem_takeWhile_imp with ⟨small, back⟩
    refine ⟨_, small, ?_, rfl, (length_map _).symm, short, ?_⟩
    · rw [back, takeWhile_append_dropWhile]
    · intro b first
      have stop := head?_dropWhile_not isAsciiDigit input
      rw [first] at stop
      exact stop
  · rintro ⟨ds, small, rfl, rfl, rfl, short, ends⟩
    rcases digits_values _ small with ⟨ok, back⟩
    have none_ : rest.takeWhile isAsciiDigit = [] ∧ rest.dropWhile isAsciiDigit = rest := by
      cases rest with
      | nil => exact ⟨rfl, rfl⟩
      | cons b rest =>
        have other : ¬ isAsciiDigit b = true := by rw [ends b rfl]; decide
        exact ⟨takeWhile_cons_of_neg other, dropWhile_cons_of_neg other⟩
    rw [takeWhile_append_of_pos ok, dropWhile_append_of_pos ok, none_.1, none_.2, append_nil, back,
      length_map]
    exact ⟨short, ⟨rfl, rfl⟩, rfl⟩

/-- What stands behind a fraction does not go on with it. -/
def Fraction.Ends (fraction : Fraction) (rest : Bytes) : Prop :=
  ∀ b, rest.head? = some b → if fraction.digits = [] then b ≠ 46 else isAsciiDigit b = false

theorem parseFraction_iff (nanos count : Nat) :
    parseFraction input = some ((nanos, count), rest) ↔
      ∃ fraction : Fraction, input = fraction.text ++ rest ∧ nanos = fraction.nanos ∧
        count = fraction.digits.length ∧ fraction.Ends rest := by
  have pointed : ∀ text : Bytes, (ascii "." ++ text).head? = some 46 := fun _ => rfl
  rw [parseFraction]
  constructor
  · intro read
    split_ifs at read with point
    · simp only [bind_eq_bind, bind_eq_some_iff, Prod.exists, literal_iff, fractionDigits_iff,
        ite_none_left_eq_some, foldl_tens, Option.some.injEq, Prod.mk.injEq] at read
      rcases read with ⟨_, rfl, _, _, _, ⟨ds, small, rfl, rfl, rfl, short, ends⟩, some_, ⟨rfl, rfl⟩, rfl⟩
      have none_ : ¬ ds = [] := fun empty => some_ (by rw [empty]; rfl)
      refine ⟨⟨ds, short, small⟩, ?_, rfl, rfl, fun b first => ?_⟩
      · rw [Fraction.text, if_neg none_, append_assoc]
      · rw [if_neg none_]
        exact ends b first
    · cases read
      refine ⟨⟨[], by decide, nofun⟩, rfl, (Nat.zero_mul _).symm, rfl, fun b first => ?_⟩
      rintro rfl
      exact point first
  · rintro ⟨fraction, rfl, rfl, rfl, ends⟩
    rw [Fraction.Ends] at ends
    by_cases none_ : fraction.digits = []
    · have other : ¬ rest.head? = some 46 := fun first => by
        have bad := ends 46 first
        rw [if_pos none_] at bad
        exact bad rfl
      rw [Fraction.text, if_pos none_, nil_append, if_neg other, Fraction.nanos, none_]
      rfl
    · have some_ : ¬ fraction.digits.length = 0 := fun zero => none_ (eq_nil_of_length_eq_zero zero)
      simp only [none_, if_false] at ends
      rw [Fraction.text, if_neg none_, append_assoc, if_pos (pointed _)]
      simp only [bind_eq_bind, bind_eq_some_iff, Prod.exists, literal_iff, fractionDigits_iff]
      refine ⟨_, rfl, _, _, _, ⟨fraction.digits, fraction.small, rfl, rfl, rfl, fraction.short, ends⟩, ?_⟩
      rw [if_neg some_, foldl_tens]
      rfl

theorem parseZone_iff (offset : Int) :
    parseZone input = some (offset, rest) ↔ ∃ zone : Zone, input = zone.text ++ rest ∧ offset = zone.nanos := by
  constructor
  · intro read
    simp only [parseZone, bind_eq_bind, bind_eq_some_iff, head?_eq_some_iff] at read
    rcases read with ⟨sign, ⟨tail, rfl⟩, read⟩
    by_cases utc : sign = 90 ∨ sign = 122
    · rw [if_pos utc] at read
      cases read
      rcases utc with rfl | rfl
      · exact ⟨.utc false, rfl, rfl⟩
      · exact ⟨.utc true, rfl, rfl⟩
    · rw [if_neg utc, ite_none_right_eq_some] at read
      simp only [bind_eq_some_iff, Prod.exists, digits_iff, literal_iff, ite_none_left_eq_some,
        not_or] at read
      rcases read with ⟨signed, hour, _, ⟨_, rfl⟩, _, rfl, minute, _, ⟨_, rfl⟩, ⟨late, late', zero⟩, same⟩
      cases same
      rcases signed with rfl | rfl
      · refine ⟨.offset false hour minute ⟨by omega, by omega⟩ nofun, ?_, ?_⟩
        · rfl
        · rw [Zone.nanos, if_pos rfl, if_neg Bool.false_ne_true]
      · refine ⟨.offset true hour minute ⟨by omega, by omega⟩ fun _ none_ => zero ⟨rfl, none_⟩, ?_, ?_⟩
        · rfl
        · rw [Zone.nanos, if_pos rfl, if_neg (by decide)]
  · rintro ⟨zone, rfl, rfl⟩
    cases zone with
    | utc lower => cases lower <;> rfl
    | offset behind hour minute inside known =>
      have signed : ∀ sign : UInt8, sign = 43 ∨ sign = 45 → (sign = 45 → ¬ (hour = 0 ∧ minute = 0)) →
          parseZone (sign :: (decimal 2 hour ++ (ascii ":" ++ (decimal 2 minute ++ rest)))) =
            some (if sign = 43 then (hour * 3600 + minute * 60) * second
              else -((hour * 3600 + minute * 60) * second), rest) := by
        intro sign signed known
        have utc : ¬ (sign = 90 ∨ sign = 122) := by rcases signed with rfl | rfl <;> decide
        have late : ¬ (23 < hour ∨ 59 < minute ∨ (sign = 45 ∧ hour = 0 ∧ minute = 0)) := by
          rintro (late | late | ⟨minus, zero⟩)
          · omega
          · omega
          · exact known minus zero
        simp only [parseZone, bind_eq_bind, bind_eq_some_iff, head?_cons, drop_one, tail_cons,
          Option.some.injEq, exists_eq_left', utc, signed, if_false, if_true, Prod.exists, digits_iff,
          literal_iff]
        exact ⟨hour, _, ⟨by omega, rfl⟩, _, rfl, minute, _, ⟨by omega, rfl⟩, if_neg late⟩
      simp only [Zone.text, append_assoc, Zone.nanos]
      cases behind with
      | true => exact (signed 45 (Or.inr rfl) fun _ => known rfl).trans (by rw [if_neg (by decide), if_pos rfl])
      | false => exact (signed 43 (Or.inl rfl) nofun).trans (by rw [if_pos rfl, if_neg Bool.false_ne_true])

theorem Zone.ends (zone : Zone) (rest : Bytes) (fraction : Fraction) : fraction.Ends (zone.text ++ rest) := by
  intro b first
  have other : b ≠ 46 ∧ isAsciiDigit b = false := by
    cases zone with
    | utc lower => cases lower <;> cases first <;> decide
    | offset behind hour minute inside known => cases behind <;> cases first <;> decide
  split
  · exact other.1
  · exact other.2

def Date.text (mark : Bytes) (date : Date) : Bytes :=
  decimal 4 date.year ++ (mark ++ (decimal 2 date.month ++ (mark ++ decimal 2 date.day)))

/-- The first day of 1970 was a Thursday. -/
def Date.weekdayName (date : Date) : Bytes := (weekdays[((date.number + 4) % 7).toNat]?).getD []

def Date.monthName (date : Date) : Bytes := (months[date.month - 1]?).getD []

def Date.named (date : Date) : Bytes :=
  date.weekdayName ++ (ascii ", " ++ (decimal 2 date.day ++ (ascii " " ++ (date.monthName ++
    (ascii " " ++ decimal 4 date.year)))))

def Clock.text (mark : Bytes) (clock : Clock) : Bytes :=
  decimal 2 clock.hour ++ (mark ++ (decimal 2 clock.minute ++ (mark ++ decimal 2 clock.second)))

/-- A text of a format and its instant, in nanoseconds since the epoch. -/
inductive Denotes : Int → Bytes → Int → Prop
  | zoned (kind : Int) (date : Date) (lower : Bool) (clock : Clock) (fraction : Fraction) (zone : Zone)
      (profile : kind = 0 ∨ (kind = 1 ∧ fraction.digits.length = 3)) :
      Denotes kind
        (date.text (ascii "-") ++ ((if lower then ascii "t" else ascii "T") ++
          (clock.text (ascii ":") ++ (fraction.text ++ zone.text))))
        (date.number * dayNs + (clock.nanos + fraction.nanos - zone.nanos))
  | http (date : Date) (clock : Clock) :
      Denotes 2 (date.named ++ (ascii " " ++ (clock.text (ascii ":") ++ ascii " GMT")))
        (date.number * dayNs + clock.nanos)
  | basic (date : Date) (clock : Clock) :
      Denotes 3 (date.text [] ++ (ascii "T" ++ (clock.text [] ++ ascii "Z")))
        (date.number * dayNs + clock.nanos)
  | day (date : Date) : Denotes 4 (date.text []) (date.number * dayNs)

theorem resolution_kind (known : resolution kind = some precision) :
    kind = 0 ∨ kind = 1 ∨ kind = 2 ∨ kind = 3 ∨ kind = 4 := by
  rw [resolution] at known
  by_contra other
  rw [if_neg (by omega), if_neg (by omega), if_neg (by omega), if_neg (by omega)] at known
  cases known

theorem date_of {year month day : Nat} (early : year < 10000) (read : civilDays year month day = some days) :
    ∃ date : Date, date.year = year ∧ date.month = month ∧ date.day = day ∧ date.number = days := by
  rcases civilDays_iff.mp read with ⟨range, low, high, _⟩
  refine ⟨⟨year, month, day, early, by omega, by omega, high⟩, rfl, rfl, rfl, ?_⟩
  have number := civilDays_number ⟨year, month, day, early, by omega, by omega, high⟩
  exact Option.some.inj (number.symm.trans read)

theorem parseClock_iff (kind : Int) (input rest : Bytes) (nanos : Int) :
    parseClock kind input = some (nanos, rest) ↔
      ∃ (clock : Clock) (tail : Bytes), input = clock.text (if kind < 3 then ascii ":" else []) ++ tail ∧
        if kind < 2 then
          ∃ (fraction : Fraction) (zone : Zone), tail = fraction.text ++ (zone.text ++ rest) ∧
            (kind = 1 → fraction.digits.length = 3) ∧ nanos = clock.nanos + fraction.nanos - zone.nanos
        else tail = (if kind = 2 then ascii " GMT" else ascii "Z") ++ rest ∧ nanos = clock.nanos := by
  simp only [parseClock, bind_eq_bind, bind_eq_some_iff, Prod.exists, digits_iff, mark_iff,
    ite_none_left_eq_some]
  constructor
  · rintro ⟨hour, _, ⟨_, rfl⟩, _, rfl, minute, _, ⟨_, rfl⟩, _, rfl, sec, tail, ⟨_, rfl⟩, late, read⟩
    refine ⟨⟨hour, minute, sec, by omega⟩, tail, by simp only [Clock.text, append_assoc], ?_⟩
    split_ifs at read ⊢ with zoned http
    · simp only [bind_eq_some_iff, Prod.exists, parseFraction_iff, ite_none_left_eq_some,
        parseZone_iff] at read
      rcases read with ⟨_, _, _, ⟨fraction, rfl, rfl, rfl, _⟩, short, _, _, ⟨zone, rfl, rfl⟩, same⟩
      cases same
      exact ⟨fraction, zone, rfl, fun millis => not_not.mp fun other => short ⟨millis, other⟩, rfl⟩
    all_goals
      rcases bind_eq_some_iff.mp read with ⟨_, ended, same⟩
      cases same
      exact ⟨(literal_iff _ _ _).mp ended, rfl⟩
  · rintro ⟨clock, tail, rfl, closes⟩
    have inside := clock.inside
    refine ⟨clock.hour, _, ⟨by omega, by simp only [Clock.text, append_assoc]⟩, _, rfl, clock.minute, _,
      ⟨by omega, rfl⟩, _, rfl, clock.second, tail, ⟨by omega, rfl⟩, by omega, ?_⟩
    split_ifs at closes ⊢ with zoned http
    · rcases closes with ⟨fraction, zone, rfl, profile, rfl⟩
      simp only [bind_eq_some_iff, Prod.exists, parseFraction_iff, ite_none_left_eq_some, parseZone_iff]
      exact ⟨_, _, _, ⟨fraction, rfl, rfl, rfl, zone.ends _ _⟩, fun bad => bad.2 (profile bad.1), _, _,
        ⟨zone, rfl, rfl⟩, rfl⟩
    all_goals
      rw [closes.1, (literal_iff _ _ _).mpr rfl, closes.2]
      rfl

theorem parseHttpDate_iff (fields : DateFields) :
    parseHttpDate input = some (fields, rest) ↔
      ∃ weekday day month year dayName monthName, day < 100 ∧ year < 10000 ∧
        weekdays[weekday]? = some dayName ∧ months[month]? = some monthName ∧
        input = dayName ++ (ascii ", " ++ (decimal 2 day ++ (ascii " " ++ (monthName ++ (ascii " " ++
          (decimal 4 year ++ (ascii " " ++ rest))))))) ∧
        fields = { weekday := some weekday, year, month := month + 1, day } := by
  rw [parseHttpDate]
  simp only [bind_eq_bind, bind_eq_some_iff, Prod.exists, name_iff, digits_iff, literal_iff,
    weekdayIndex_iff, monthIndex_iff, Option.some.injEq, Prod.mk.injEq]
  constructor
  · rintro ⟨dayName, _, ⟨_, rfl⟩, weekday, isDay, _, rfl, day, _, ⟨small, rfl⟩, _, rfl, monthName, _,
      ⟨_, rfl⟩, month, isMonth, _, rfl, year, _, ⟨early, rfl⟩, _, rfl, rfl, rfl⟩
    exact ⟨weekday, day, month, year, dayName, monthName, small, early, isDay, isMonth, rfl, rfl⟩
  · rintro ⟨weekday, day, month, year, dayName, monthName, small, early, isDay, isMonth, rfl, rfl⟩
    exact ⟨dayName, _, ⟨names_length (by decide) isDay, rfl⟩, weekday, isDay, _, rfl, day, _, ⟨small, rfl⟩, _, rfl,
      monthName, _, ⟨names_length (by decide) isMonth, rfl⟩, month, isMonth, _, rfl, year, _, ⟨early, rfl⟩, _, rfl,
      rfl, rfl⟩

theorem parseIsoDate_iff (kind : Int) (input rest : Bytes) (fields : DateFields) :
    parseIsoDate kind input = some (fields, rest) ↔
      ∃ (year month day : Nat) (lower : Bool), year < 10000 ∧ month < 100 ∧ day < 100 ∧
        (lower = true → kind < 2) ∧
        input = decimal 4 year ++ ((if kind < 2 then ascii "-" else []) ++ (decimal 2 month ++
          ((if kind < 2 then ascii "-" else []) ++ (decimal 2 day ++
            ((if kind ≠ 4 then if lower then ascii "t" else ascii "T" else []) ++ rest))))) ∧
        fields = { weekday := none, year, month, day } := by
  simp only [parseIsoDate, bind_eq_bind, bind_eq_some_iff, Prod.exists, digits_iff, mark_iff,
    Option.some.injEq, Prod.mk.injEq]
  constructor
  · rintro ⟨year, _, ⟨early, rfl⟩, _, rfl, month, _, ⟨twelve, rfl⟩, _, rfl, day, after, ⟨small, rfl⟩, _, marked, rfl, rfl⟩
    refine ⟨year, month, day, decide (kind < 2 ∧ after.head? = some 116), early, twelve, small,
      fun lower => (of_decide_eq_true lower).1, ?_, rfl⟩
    simp only [decide_eq_true_iff]
    rw [← marked]
  · rintro ⟨year, month, day, lower, early, twelve, small, zoned, rfl, rfl⟩
    refine ⟨year, _, ⟨early, rfl⟩, _, rfl, month, _, ⟨twelve, rfl⟩, _, rfl, day, _, ⟨small, rfl⟩, rest, ?_, rfl, rfl⟩
    split_ifs with timed isLower marked marked
    · rfl
    · exact absurd ⟨zoned isLower, rfl⟩ marked
    · exact absurd marked.2 (by decide : ¬ some (84 : UInt8) = some 116)
    · rfl
    · rfl

end Align.Time
