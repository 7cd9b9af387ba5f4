import Align.Segments

/-! Bytes and fields shared by the two halves of the HTTP codec: token and value
alphabets, case-insensitive comparison, blank trimming on spans of a buffer, and
decimal lengths. -/
namespace Align.Http
open Segments List

abbrev Bytes := List UInt8

def cr : UInt8 := 13

def lf : UInt8 := 10

def blank : UInt8 := 32

def tab : UInt8 := 9

def colon : UInt8 := 58

def ascii (text : String) : Bytes := text.toList.map fun c => UInt8.ofNat c.toNat

inductive HttpParseErr where
  | incomplete
  | invalid
  | bodyLimit
deriving DecidableEq, Repr

structure HttpHeaderSpan where
  nameStart : Nat
  nameLen : Nat
  valueStart : Nat
  valueLen : Nat
deriving DecidableEq, Repr

def httpMaxHeaders : Nat := 128

def isDigit (b : UInt8) : Bool := 48 ≤ b && b ≤ 57

def isTchar (b : UInt8) : Bool :=
  b == 33 || b == 35 || b == 36 || b == 37 || b == 38 || b == 39 || b == 42 || b == 43 ||
    b == 45 || b == 46 || b == 94 || b == 95 || b == 96 || b == 124 || b == 126 ||
    isDigit b || (65 ≤ b && b ≤ 90) || (97 ≤ b && b ≤ 122)

def httpIsToken (s : Bytes) : Bool := !s.isEmpty && s.all isTchar

def httpFieldIsClean (s : Bytes) : Bool := !s.any fun b => b == cr || b == lf || b == 0

def httpRequestLineFieldClean (s : Bytes) : Bool :=
  !s.any fun b => b == cr || b == lf || b == 0 || b == blank

def toLower (b : UInt8) : UInt8 := if 65 ≤ b && b ≤ 90 then b + 32 else b

def eqIgnoreAsciiCase (a b : Bytes) : Bool := a.map toLower == b.map toLower

def memchr (needle : UInt8) (hay : Bytes) : Option Nat := hay.findIdx? (· == needle)

def isOws (b : UInt8) : Bool := b == blank || b == tab

/-- The first loop of the trim: at most `count` bytes from `s`. -/
def trimFront (src : Bytes) (s : Nat) : Nat → Nat
  | 0 => s
  | count + 1 =>
      match src[s]? with
      | some b => if isOws b then trimFront src (s + 1) count else s
      | none => s

/-- The second loop: how much of the `count` bytes from `s` is left. -/
def trimBack (src : Bytes) (s : Nat) : Nat → Nat
  | 0 => 0
  | count + 1 =>
      match src[s + count]? with
      | some b => if isOws b then trimBack src s count else count + 1
      | none => count + 1

def httpTrimOws (src : Bytes) (start len : Nat) : Nat × Nat :=
  let s := trimFront src start len
  (s, trimBack src s (start + len - s))

def decimalValue (digits : Bytes) : Nat := digits.foldl (fun n b => n * 10 + (b.toNat - 48)) 0

def trimmed (text : Bytes) : Bytes := (text.dropWhile isOws).rdropWhile isOws

variable (src more : Bytes) (start : Nat)

theorem slice_append_right (inside : stop ≤ src.length) :
    slice (src ++ more) start stop = slice src start stop := by
  by_cases order : start ≤ stop
  · rw [slice, slice, drop_append_of_le_length (by omega),
      take_append_of_le_length (by rw [length_drop]; omega)]
  · have none_ : stop - start = 0 := by omega
    rw [slice, slice, none_, take_zero, take_zero]

theorem slice_cons_step (here : src[start]? = some b) (order : start < stop) : slice src start stop = b :: slice src (start + 1) stop := by
  rcases List.getElem?_eq_some_iff.mp here with ⟨inside, rfl⟩
  have count : stop - start = (stop - (start + 1)) + 1 := by omega
  rw [slice, slice, drop_eq_getElem_cons inside, count, take_succ_cons]

theorem memchr_append_some (more : Bytes)
    (hit : memchr needle hay = some rel) : memchr needle (hay ++ more) = some rel := by
  rw [memchr] at hit
  rw [memchr, findIdx?_append, hit, Option.some_or]

theorem memchr_append_none (more : Bytes) (miss : memchr needle hay = none) :
    memchr needle (hay ++ more) = (memchr needle more).map (· + hay.length) := by
  rw [memchr] at miss
  rw [memchr, memchr, findIdx?_append, miss, Option.none_or]

theorem memchr_lt (hit : memchr needle hay = some rel) :
    rel < hay.length :=
  (findIdx?_eq_some_iff_getElem.mp hit).1

theorem slice_self : slice src start start = [] := by
  rw [slice, Nat.sub_self, take_zero]

variable {count : Nat}

theorem trimFront_eq (inside : start + count ≤ src.length) :
    start ≤ trimFront src start count ∧ trimFront src start count ≤ start + count ∧
      slice src (trimFront src start count) (start + count) =
        (slice src start (start + count)).dropWhile isOws := by
  induction count generalizing start with
  | zero => exact ⟨Nat.le_refl _, Nat.le_refl _, by rw [trimFront, Nat.add_zero, slice_self]; rfl⟩
  | succ count ih =>
    have bound : start < src.length := by omega
    have here := getElem?_eq_getElem bound
    rw [trimFront, here, slice_cons_step _ _ here (by omega)]
    dsimp only
    by_cases ows : isOws src[start] = true
    · rcases ih (start + 1) (by omega) with ⟨low, high, text⟩
      rw [if_pos ows, dropWhile_cons_of_pos ows]
      refine ⟨by omega, by omega, ?_⟩
      rw [show start + (count + 1) = start + 1 + count by omega, text]
    · rw [if_neg ows, dropWhile_cons_of_neg ows]
      exact ⟨Nat.le_refl _, by omega, slice_cons_step _ _ here (by omega)⟩

theorem slice_concat (inside : start + count < src.length) :
    slice src start (start + (count + 1)) = slice src start (start + count) ++ [src[start + count]] := by
  rw [slice, slice, Nat.add_sub_cancel_left, Nat.add_sub_cancel_left]
  have bound : count < (src.drop start).length := by
    rw [length_drop]
    omega
  rw [← take_concat_get' (src.drop start) count bound, getElem_drop]

theorem trimBack_eq (count : Nat) (inside : start + count ≤ src.length) :
    trimBack src start count ≤ count ∧
      slice src start (start + trimBack src start count) =
        (slice src start (start + count)).rdropWhile isOws := by
  induction count with
  | zero => exact ⟨Nat.le_refl 0, by rw [trimBack, Nat.add_zero, slice_self]; rfl⟩
  | succ count ih =>
    have bound : start + count < src.length := by omega
    rw [trimBack, getElem?_eq_getElem bound, slice_concat _ _ bound, rdropWhile_concat]
    dsimp only
    by_cases ows : isOws src[start + count] = true
    · rcases ih (by omega) with ⟨small, text⟩
      rw [if_pos ows, if_pos ows]
      exact ⟨by omega, text⟩
    · rw [if_neg ows, if_neg ows]
      exact ⟨Nat.le_refl _, slice_concat _ _ bound⟩

theorem trimFront_append (count : Nat) (inside : start + count ≤ src.length) :
    trimFront (src ++ more) start count = trimFront src start count := by
  induction count generalizing start with
  | zero => rfl
  | succ count ih =>
    rw [trimFront, trimFront, getElem?_append_left (by omega), ih (start + 1) (by omega)]

theorem trimBack_append (count : Nat) (inside : start + count ≤ src.length) :
    trimBack (src ++ more) start count = trimBack src start count := by
  induction count with
  | zero => rfl
  | succ count ih =>
    rw [trimBack, trimBack, getElem?_append_left (by omega), ih (by omega)]

theorem httpTrimOws_append (inside : start + len ≤ src.length) :
    httpTrimOws (src ++ more) start len = httpTrimOws src start len := by
  have front := trimFront_eq _ _ inside
  rw [httpTrimOws, httpTrimOws, trimFront_append _ _ _ _ inside,
    trimBack_append _ _ _ _ (by omega)]

theorem httpTrimOws_eq (len : Nat) (inside : start + len ≤ src.length) :
    (httpTrimOws src start len).1 + (httpTrimOws src start len).2 ≤ start + len ∧
      slice src (httpTrimOws src start len).1
          ((httpTrimOws src start len).1 + (httpTrimOws src start len).2) =
        trimmed (slice src start (start + len)) := by
  rcases trimFront_eq _ _ inside with ⟨low, high, front⟩
  have rest : trimFront src start len + (start + len - trimFront src start len) = start + len := by
    omega
  rcases trimBack_eq src (trimFront src start len) (start + len - trimFront src start len)
    (by omega) with ⟨small, back⟩
  rw [rest, front] at back
  rw [httpTrimOws]
  exact ⟨by dsimp only; omega, back⟩

theorem memchr_at (absent : needle ∉ before) (after : Bytes) :
    memchr needle (before ++ needle :: after) = some before.length := by
  have miss : memchr needle before = none := by
    rw [memchr, findIdx?_eq_none_iff]
    intro b inside
    rw [beq_eq_false_iff_ne]
    exact fun same => absent (same ▸ inside)
  have first : memchr needle (needle :: after) = some 0 := by
    rw [memchr, findIdx?_cons, if_pos (beq_self_eq_true needle)]
  rw [memchr_append_none _ miss, first, Option.map_some, Nat.zero_add]

theorem drop_past (before after : Bytes) (b : UInt8) :
    (before ++ b :: after).drop (before.length + 1) = after := by
  rw [drop_append, drop_eq_nil_of_le (Nat.le_succ _), Nat.add_sub_cancel_left]
  rfl

theorem httpFieldIsClean_iff (s : Bytes) :
    httpFieldIsClean s = true ↔ ∀ b ∈ s, b ≠ cr ∧ b ≠ lf ∧ b ≠ 0 := by
  rw [httpFieldIsClean, Bool.not_eq_true', any_eq_false]
  apply forall₂_congr
  intro b _
  rw [Bool.or_eq_true, Bool.or_eq_true, beq_iff_eq, beq_iff_eq, beq_iff_eq]
  tauto

theorem httpIsToken_iff :
    httpIsToken s = true ↔ s ≠ [] ∧ ∀ b ∈ s, isTchar b = true := by
  rw [httpIsToken, Bool.and_eq_true, all_eq_true, Bool.not_eq_true', isEmpty_eq_false_iff]

theorem trimmed_blank (text : Bytes) : trimmed (blank :: text) = trimmed text := by
  rw [trimmed, trimmed, dropWhile_cons_of_pos (by decide)]

theorem trimmed_eq_self (solid : ∀ b ∈ text, isOws b = false) :
    trimmed text = text := by
  have front : text.dropWhile isOws = text := by
    cases text with
    | nil => rfl
    | cons b rest =>
      apply dropWhile_cons_of_neg
      rw [solid b mem_cons_self]
      decide
  rw [trimmed, front, rdropWhile_eq_self_iff]
  intro some
  rw [solid _ (getLast_mem some)]
  decide

end Align.Http
