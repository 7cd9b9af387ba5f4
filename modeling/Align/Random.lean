import Align.FisherYates

/-! The pseudo-random generator and what draws from it: bounded integers by
rejection, the in-place shuffle and the sample without replacement. The rejection
loop has no bound of its own; `fuel` counts the words it may draw again, and running
out of it is no result. The hash map of displaced slots is its finite map. -/
namespace Align.Random
open FisherYates Option
open List hiding swap swap_self

structure Rng where
  s0 : UInt64
  s1 : UInt64
  s2 : UInt64
  s3 : UInt64
deriving DecidableEq, Repr

def rotateLeft (word : UInt64) (count : UInt64) : UInt64 :=
  (word <<< count) ||| (word >>> (64 - count))

def xoshiroNext (s : Rng) : UInt64 × Rng :=
  let result := rotateLeft (s.s0 + s.s3) 23 + s.s0
  let t := s.s1 <<< 17
  let s2 := s.s2 ^^^ s.s0
  let s3 := s.s3 ^^^ s.s1
  let s1 := s.s1 ^^^ s2
  let s0 := s.s0 ^^^ s3
  (result, ⟨s0, s1, s2 ^^^ t, rotateLeft s3 45⟩)

/-- The `while` loop on the 128-bit product `m`. -/
def boundedLoop (threshold range : UInt64) : Nat → Nat → Rng → Option (Nat × Rng)
  | 0, m, s => if UInt64.ofNat m < threshold then none else some (m, s)
  | fuel + 1, m, s =>
      if UInt64.ofNat m < threshold then
        let (word, s) := xoshiroNext s
        boundedLoop threshold range fuel (word.toNat * range.toNat) s
      else some (m, s)

def bounded (fuel : Nat) (s : Rng) (range : UInt64) : Option (UInt64 × Rng) :=
  let (word, s) := xoshiroNext s
  let m := word.toNat * range.toNat
  let drawn := if UInt64.ofNat m < range then boundedLoop ((0 - range) % range) range fuel m s
    else some (m, s)
  drawn.map fun (m, s) => (UInt64.ofNat (m >>> 64), s)

/-- `none` is the abort on an empty range. -/
def alignRtRngRange (fuel : Nat) (s : Rng) (lo hi : Int64) : Option (Int64 × Rng) :=
  if hi ≤ lo then none
  else (bounded fuel s (UInt64.ofInt (hi.toInt - lo.toInt))).map fun (draw, s) =>
    (Int64.ofInt (lo.toInt + draw.toNat), s)

/-- The value a word yields, or a rejection. -/
def accept (range word : UInt64) : Option UInt64 :=
  let m := word.toNat * range.toNat
  if UInt64.ofNat m < (0 - range) % range then none else some (UInt64.ofNat (m >>> 64))

theorem range_pos {range : UInt64} (positive : range ≠ 0) : 0 < range.toNat :=
  Nat.pos_of_ne_zero fun zero => positive (UInt64.toNat_inj.mp zero)

theorem threshold_lt (range : UInt64) (positive : range ≠ 0) : (0 - range) % range < range :=
  Nat.mod_lt _ (range_pos positive)

variable (fuel : Nat) (s : Rng) (range : UInt64)

theorem bounded_eq (positive : range ≠ 0) :
    bounded fuel s range =
      (boundedLoop ((0 - range) % range) range fuel ((xoshiroNext s).1.toNat * range.toNat)
        (xoshiroNext s).2).map fun (m, s) => (UInt64.ofNat (m >>> 64), s) := by
  rw [bounded]
  by_cases low : UInt64.ofNat ((xoshiroNext s).1.toNat * range.toNat) < range
  · simp only [if_pos low]
  have admitted : ¬ UInt64.ofNat ((xoshiroNext s).1.toNat * range.toNat) < (0 - range) % range :=
    fun below => low (UInt64.lt_trans below (threshold_lt _ positive))
  simp only [if_neg low]
  cases fuel with
  | zero => rw [boundedLoop, if_neg admitted]
  | succ fuel => rw [boundedLoop, if_neg admitted]

theorem bounded_last (positive : range ≠ 0) :
    bounded 0 s range = (accept range (xoshiroNext s).1).map fun v => (v, (xoshiroNext s).2) := by
  rw [bounded_eq 0 s _ positive, boundedLoop, accept]
  split
  · rfl
  · rfl

theorem bounded_step (positive : range ≠ 0) :
    bounded (fuel + 1) s range =
      match accept range (xoshiroNext s).1 with
      | some v => some (v, (xoshiroNext s).2)
      | none => bounded fuel (xoshiroNext s).2 range := by
  rw [bounded_eq _ s _ positive, boundedLoop, accept,
    bounded_eq _ _ _ positive]
  split_ifs
  · rfl
  · rfl

theorem threshold_toNat (positive : range ≠ 0) :
    ((0 - range) % range).toNat = 2 ^ 64 % range.toNat := by
  have nonzero := range_pos positive
  have size := range.toNat_lt
  have negated : (0 - range).toNat = 2 ^ 64 - range.toNat := by
    rw [UInt64.toNat_sub, UInt64.toNat_zero, Nat.add_zero]
    exact Nat.mod_eq_of_lt (by omega)
  rw [UInt64.toNat_mod, negated]
  conv => rhs; rw [show 2 ^ 64 = (2 ^ 64 - range.toNat) + range.toNat by omega]
  rw [Nat.add_mod_right]

theorem accept_iff (v : UInt64) (positive : range ≠ 0) :
    accept range word = some v ↔
      v.toNat * 2 ^ 64 + 2 ^ 64 % range.toNat ≤ word.toNat * range.toNat ∧
        word.toNat * range.toNat < v.toNat * 2 ^ 64 + 2 ^ 64 := by
  have product : word.toNat * range.toNat < 2 ^ 64 * 2 ^ 64 :=
    Nat.mul_lt_mul'' word.toNat_lt range.toNat_lt
  have threshold := threshold_toNat _ positive
  have small := Nat.mod_lt (2 ^ 64) (range_pos positive)
  rw [accept]
  generalize word.toNat * range.toNat = m at *
  have high : (UInt64.ofNat (m >>> 64)).toNat = m / 2 ^ 64 := by
    rw [UInt64.toNat_ofNat', Nat.shiftRight_eq_div_pow, Nat.mod_eq_of_lt]
    omega
  have low : UInt64.ofNat m < (0 - range) % range ↔ m % 2 ^ 64 < 2 ^ 64 % range.toNat := by
    rw [UInt64.lt_iff_toNat_lt, threshold, UInt64.toNat_ofNat']
  rw [if_congr low rfl rfl]
  split_ifs with rejected
  · rw [false_iff]
    rintro ⟨above, below⟩
    omega
  · rw [Option.some.injEq, ← UInt64.toNat_inj, high]
    constructor
    · intro same
      omega
    · rintro ⟨above, below⟩
      omega

theorem accept_lt (positive : range ≠ 0) (accepted : accept range word = some v) : v < range := by
  have bounds := (accept_iff _ v positive).mp accepted
  have product : word.toNat * range.toNat < 2 ^ 64 * range.toNat :=
    Nat.mul_lt_mul_of_pos_right word.toNat_lt (range_pos positive)
  rw [UInt64.lt_iff_toNat_lt]
  omega

theorem bounded_lt (range : UInt64) (positive : range ≠ 0)
    (drawn : bounded fuel s range = some (v, s')) : v < range := by
  induction fuel generalizing s with
  | zero =>
    rw [bounded_last s _ positive, map_eq_some_iff] at drawn
    rcases drawn with ⟨w, accepted, same⟩
    cases same
    exact accept_lt _ positive accepted
  | succ fuel ih =>
    rw [bounded_step _ s _ positive] at drawn
    cases here : accept range (xoshiroNext s).1 with
    | some w =>
      rw [here] at drawn
      cases drawn
      exact accept_lt _ positive here
    | none =>
      rw [here] at drawn
      exact ih _ drawn

theorem draw_lt {range : Nat} {s s' : Rng} (positive : 0 < range)
    (fits : range < 2 ^ 64) (drawn : bounded fuel s (UInt64.ofNat range) = some (v, s')) :
    v.toNat < range := by
  have exact : (UInt64.ofNat range).toNat = range := by
    rw [UInt64.toNat_ofNat', Nat.mod_eq_of_lt fits]
  have nonzero : UInt64.ofNat range ≠ 0 := by
    intro zero
    rw [zero, UInt64.toNat_zero] at exact
    omega
  have below := UInt64.lt_iff_toNat_lt.mp (bounded_lt _ s _ nonzero drawn)
  rwa [exact] at below

theorem range_inside (drawn : alignRtRngRange fuel s lo hi = some (v, s')) : lo ≤ v ∧ v < hi := by
  rw [alignRtRngRange] at drawn
  split_ifs at drawn with empty
  rcases map_eq_some_iff.mp drawn with ⟨⟨draw, s1⟩, first, same⟩
  cases same
  rw [Int64.le_iff_toInt_le] at empty
  have lowest := lo.le_toInt
  have highest := hi.toInt_lt
  -- the width of the span fits a word although the span may cross zero
  have width : ((hi.toInt - lo.toInt) % 2 ^ 64).toNat = (hi.toInt - lo.toInt).toNat := by
    rw [Int.emod_eq_of_lt (by omega) (by have := lo.toInt_lt; have := hi.le_toInt; omega)]
  have below := draw_lt _ (by omega) (by omega) first
  rw [Int64.le_iff_toInt_le, Int64.lt_iff_toInt_lt, Int64.toInt_ofInt_of_le (by omega) (by omega)]
  omega

theorem range_across_zero : ∃ v s, alignRtRngRange 0 ⟨1, 2, 3, 4⟩ (-2) 3 = some (v, s) ∧ -2 ≤ v ∧ v < 3 :=
  ⟨_, _, rfl, range_inside 0 ⟨1, 2, 3, 4⟩ rfl⟩

variable {α : Type} (fuel i : Nat) (s : Rng) (xs : List α)

/-- The places drawn from place `i` on. -/
def places : Nat → List Nat → List Nat
  | _, [] => []
  | i, d :: ds => (i + d) :: places (i + 1) ds

end Align.Random
