import Align.Calendar
import Align.Numerals

/-! The named wire formats of an instant: two RFC 3339 profiles, the HTTP date, the
basic timestamp and the basic date. An instant is a signed number of nanoseconds. -/
namespace Align.Time
open Numerals

abbrev Bytes := List UInt8

def ascii (text : String) : Bytes := text.toList.map fun c => UInt8.ofNat c.toNat

def second : Int := 1000000000

def dayNs : Int := 86400 * second

def months : List Bytes :=
  ["Jan", "Feb", "Mar", "Apr", "May", "Jun", "Jul", "Aug", "Sep", "Oct", "Nov", "Dec"].map ascii

def weekdays : List Bytes := ["Sun", "Mon", "Tue", "Wed", "Thu", "Fri", "Sat"].map ascii

def nameIndex : List (Bytes × Nat) → Bytes → Option Nat
  | [], _ => none
  | (arm, index) :: arms, name => if name = arm then some index else nameIndex arms name

def weekdayIndex : Bytes → Option Nat :=
  nameIndex
    [(ascii "Sun", 0), (ascii "Mon", 1), (ascii "Tue", 2), (ascii "Wed", 3), (ascii "Thu", 4),
      (ascii "Fri", 5), (ascii "Sat", 6)]

def monthIndex : Bytes → Option Nat :=
  nameIndex
    [(ascii "Jan", 0), (ascii "Feb", 1), (ascii "Mar", 2), (ascii "Apr", 3), (ascii "May", 4),
      (ascii "Jun", 5), (ascii "Jul", 6), (ascii "Aug", 7), (ascii "Sep", 8), (ascii "Oct", 9),
      (ascii "Nov", 10), (ascii "Dec", 11)]

def resolution (kind : Int) : Option Int :=
  if kind = 0 then some 1
  else if kind = 1 then some 1000000
  else if kind = 2 ∨ kind = 3 then some second
  else if kind = 4 then some dayNs
  else none

def push (text value : Bytes) : Option Bytes :=
  if text.length + value.length ≤ 32 then some (text ++ value) else none

def digit (n : Nat) : UInt8 := UInt8.ofNat (48 + n)

/-- The last `width` digits of a number in front of `tail`, and what is left of it. -/
def writeDigits : Nat → Nat → Bytes → Bytes × Nat
  | 0, value, tail => (tail, value)
  | width + 1, value, tail => writeDigits width (value / 10) (digit (value % 10) :: tail)

def pushDigits (width : Nat) (text : Bytes) (value : Int) : Option Bytes :=
  if ¬ (0 ≤ value ∧ value < 2 ^ 32) then none
  else if 32 < text.length + width then none
  else if (writeDigits width value.toNat []).2 ≠ 0 then none
  else some (text ++ (writeDigits width value.toNat []).1)

/-- Trailing zeros behind `start` are cut off. -/
def trimZeros (start : Nat) (text : Bytes) : Bytes :=
  if start < text.length ∧ text.getLast? = some 48 then trimZeros start text.dropLast else text
termination_by text.length
decreasing_by
  rw [List.length_dropLast]
  omega

structure Civil where
  year : Int
  month : Int
  day : Int
  hour : Int
  minute : Int
  second : Int
  fraction : Int

/-- Milliseconds always, nanoseconds only where there are some. -/
def formatFraction (kind fraction : Int) (out : Bytes) : Option Bytes :=
  if kind = 1 then do
    let out ← push out (ascii ".")
    pushDigits 3 out (fraction / 1000000)
  else if fraction ≠ 0 then do
    let dotted ← push out (ascii ".")
    let full ← pushDigits 9 dotted fraction
    some (trimZeros out.length full)
  else some out

def formatDashed (kind : Int) (at_ : Civil) : Option Bytes := do
  let out ← pushDigits 4 [] at_.year
  let out ← push out (ascii "-")
  let out ← pushDigits 2 out at_.month
  let out ← push out (ascii "-")
  let out ← pushDigits 2 out at_.day
  let out ← push out (ascii "T")
  let out ← pushDigits 2 out at_.hour
  let out ← push out (ascii ":")
  let out ← pushDigits 2 out at_.minute
  let out ← push out (ascii ":")
  let out ← pushDigits 2 out at_.second
  let out ← formatFraction kind at_.fraction out
  push out (ascii "Z")

def formatHttp (days : Int) (at_ : Civil) : Option Bytes := do
  let weekday ← weekdays[((days + 4) % 7).toNat]?
  let monthName ← if 0 ≤ at_.month - 1 then months[(at_.month - 1).toNat]? else none
  let out ← push [] weekday
  let out ← push out (ascii ", ")
  let out ← pushDigits 2 out at_.day
  let out ← push out (ascii " ")
  let out ← push out monthName
  let out ← push out (ascii " ")
  let out ← pushDigits 4 out at_.year
  let out ← push out (ascii " ")
  let out ← pushDigits 2 out at_.hour
  let out ← push out (ascii ":")
  let out ← pushDigits 2 out at_.minute
  let out ← push out (ascii ":")
  let out ← pushDigits 2 out at_.second
  push out (ascii " GMT")

def formatBasic (kind : Int) (at_ : Civil) : Option Bytes := do
  let out ← pushDigits 4 [] at_.year
  let out ← pushDigits 2 out at_.month
  let out ← pushDigits 2 out at_.day
  if kind = 3 then do
    let out ← push out (ascii "T")
    let out ← pushDigits 2 out at_.hour
    let out ← pushDigits 2 out at_.minute
    let out ← pushDigits 2 out at_.second
    push out (ascii "Z")
  else some out

/-- The clock of an instant inside its day. -/
def civilAt (date : Int × Int × Int) (within : Int) : Civil :=
  { year := date.1, month := date.2.1, day := date.2.2
    hour := within / (3600 * second), minute := within / (60 * second) % 60
    second := within / second % 60, fraction := within % second }

def format (ns kind : Int) : Option Bytes := do
  let precision ← resolution kind
  let rounded := ns / precision * precision
  let rounded ← toI64 rounded
  let days ← toI64 (rounded / dayNs)
  let date ← civilDate days
  let at_ := civilAt date (rounded % dayNs)
  if kind = 0 ∨ kind = 1 then formatDashed kind at_
  else if kind = 2 then formatHttp days at_
  else if kind = 3 ∨ kind = 4 then formatBasic kind at_
  else none

/-! Reading. The parser's position is the rest of the text. -/

def isAsciiDigit (b : UInt8) : Bool := 48 ≤ b && b ≤ 57

def digits (width : Nat) (input : Bytes) : Option (Nat × Bytes) :=
  if input.length < width then none
  else
    ((input.take width).foldlM (fun value b =>
      if isAsciiDigit b then some (value * 10 + (b.toNat - 48)) else none) 0).map fun value =>
        (value, input.drop width)

def literal (expected input : Bytes) : Option Bytes :=
  if input.length < expected.length then none
  else if input.take expected.length ≠ expected then none
  else some (input.drop expected.length)

def mark (has : Prop) [Decidable has] (expected input : Bytes) : Option Bytes :=
  if has then literal expected input else some input

def name (width : Nat) (input : Bytes) : Option (Bytes × Bytes) :=
  if input.length < width then none else some (input.take width, input.drop width)

structure DateFields where
  weekday : Option Nat
  year : Nat
  month : Nat
  day : Nat

def parseHttpDate (input : Bytes) : Option (DateFields × Bytes) := do
  let (dayName, rest) ← name 3 input
  let weekday ← weekdayIndex dayName
  let rest ← literal (ascii ", ") rest
  let (day, rest) ← digits 2 rest
  let rest ← literal (ascii " ") rest
  let (monthName, rest) ← name 3 rest
  let month ← monthIndex monthName
  let rest ← literal (ascii " ") rest
  let (year, rest) ← digits 4 rest
  let rest ← literal (ascii " ") rest
  some ({ weekday := some weekday, year, month := month + 1, day }, rest)

def parseIsoDate (kind : Int) (input : Bytes) : Option (DateFields × Bytes) := do
  let (year, rest) ← digits 4 input
  let rest ← mark (kind < 2) (ascii "-") rest
  let (month, rest) ← digits 2 rest
  let rest ← mark (kind < 2) (ascii "-") rest
  let (day, rest) ← digits 2 rest
  let rest ← mark (kind ≠ 4) (if kind < 2 ∧ rest.head? = some 116 then ascii "t" else ascii "T") rest
  some ({ weekday := none, year, month, day }, rest)

/-- The digits behind the point: their number and how many they are; ten are too many. -/
def fractionDigits : Bytes → Nat → Nat → Option ((Nat × Nat) × Bytes)
  | [], fraction, count => some ((fraction, count), [])
  | b :: rest, fraction, count =>
      if isAsciiDigit b then
        if count = 9 then none else fractionDigits rest (fraction * 10 + (b.toNat - 48)) (count + 1)
      else some ((fraction, count), b :: rest)

/-- Nanoseconds of the fraction, and how many digits it had. -/
def parseFraction (input : Bytes) : Option ((Nat × Nat) × Bytes) :=
  if input.head? = some 46 then do
    let rest ← literal (ascii ".") input
    let ((fraction, count), rest) ← fractionDigits rest 0 0
    if count = 0 then none
    else some (((List.range (9 - count)).foldl (fun fraction _ => fraction * 10) fraction, count), rest)
  else some ((0, 0), input)

def parseZone (input : Bytes) : Option (Int × Bytes) := do
  let sign ← input.head?
  let rest := input.drop 1
  if sign = 90 ∨ sign = 122 then some (0, rest)
  else if sign = 43 ∨ sign = 45 then do
    let (hour, rest) ← digits 2 rest
    let rest ← literal (ascii ":") rest
    let (minute, rest) ← digits 2 rest
    if 23 < hour ∨ 59 < minute ∨ (sign = 45 ∧ hour = 0 ∧ minute = 0) then none
    else
      let offset : Int := (hour * 3600 + minute * 60) * second
      some (if sign = 43 then offset else -offset, rest)
  else none

/-- The nanoseconds of the text behind the date. -/
def parseClock (kind : Int) (input : Bytes) : Option (Int × Bytes) := do
  let (hour, rest) ← digits 2 input
  let rest ← mark (kind < 3) (ascii ":") rest
  let (minute, rest) ← digits 2 rest
  let rest ← mark (kind < 3) (ascii ":") rest
  let (sec, rest) ← digits 2 rest
  if 23 < hour ∨ 59 < minute ∨ 59 < sec then none
  else
    let value : Int := (hour * 3600 + minute * 60 + sec) * second
    if kind < 2 then do
      let ((fraction, count), rest) ← parseFraction rest
      if kind = 1 ∧ count ≠ 3 then none
      else do
        let (offset, rest) ← parseZone rest
        some (value + fraction - offset, rest)
    else if kind = 2 then do
      let rest ← literal (ascii " GMT") rest
      some (value, rest)
    else do
      let rest ← literal (ascii "Z") rest
      some (value, rest)

def parseDate (kind : Int) (input : Bytes) : Option (DateFields × Bytes) :=
  if kind = 2 then parseHttpDate input else parseIsoDate kind input

def parseTime (kind : Int) (input : Bytes) : Option (Int × Bytes) :=
  if kind ≠ 4 then parseClock kind input else some (0, input)

def parse (bytes : Bytes) (kind : Int) : Option Int := do
  let _ ← resolution kind
  if 35 < bytes.length ∨ !bytes.all (· < 128) then none
  else do
    let (date, rest) ← parseDate kind bytes
    let days ← civilDays date.year date.month date.day
    if date.weekday.any fun (weekday : Nat) => decide ((weekday : Int) ≠ (days + 4) % 7) then none
    else do
      let (clock, rest) ← parseTime kind rest
      if rest ≠ [] then none else toI64 (days * dayNs + clock)

end Align.Time
