import Mathlib

/-! Positional numerals written from the last digit to the first into a buffer
of bounded width, and the left-to-right reading that recovers the number. -/
namespace Align.Numerals
open List

/-- Digits of `n`, at most `width` of them, in front of what is already written. -/
def numeral (base : Nat) : Nat → Nat → List Nat → List Nat
  | 0, _, written => written
  | width + 1, n, written =>
      if n / base = 0 then n % base :: written else numeral base width (n / base) (n % base :: written)

def value (base start : Nat) (digits : List Nat) : Nat :=
  digits.foldl (fun total digit => total * base + digit) start

variable (base width n : Nat) (written : List Nat)

theorem value_numeral (fits : n < base ^ width) :
    value base 0 (numeral base width n written) = value base n written := by
  induction width generalizing n written with
  | zero =>
    rw [pow_zero, Nat.lt_one_iff] at fits
    rw [fits]
    rfl
  | succ width ih =>
    have last : n / base * base + n % base = n := by
      rw [Nat.mul_comm]
      exact Nat.div_add_mod n base
    rw [numeral]
    by_cases single : n / base = 0
    · rw [single, Nat.zero_mul, Nat.zero_add] at last
      rw [if_pos single, value, value, foldl_cons, Nat.zero_mul, Nat.zero_add, last]
    have short : n / base < base ^ width := by
      apply Nat.div_lt_of_lt_mul
      rw [Nat.mul_comm, ← pow_succ]
      exact fits
    rw [if_neg single, ih _ _ short, value, value, foldl_cons, last]

theorem numeral_digits (positive : 0 < base) (digits : ∀ d ∈ written, d < base) : ∀ d ∈ numeral base width n written, d < base := by
  induction width generalizing n written with
  | zero => exact digits
  | succ width ih =>
    have longer : ∀ d ∈ n % base :: written, d < base := by
      intro d inside
      rcases mem_cons.mp inside with rfl | inside
      · exact Nat.mod_lt n positive
      · exact digits d inside
    rw [numeral]
    by_cases single : n / base = 0
    · rw [if_pos single]
      exact longer
    · rw [if_neg single]
      exact ih _ _ longer

theorem numeral_ne_nil (some : written ≠ [] ∨ 0 < width) :
    numeral base width n written ≠ [] := by
  induction width generalizing n written with
  | zero =>
    rcases some with some | absurd_
    · exact some
    · exact absurd absurd_ (Nat.lt_irrefl 0)
  | succ width ih =>
    rw [numeral]
    by_cases single : n / base = 0
    · rw [if_pos single]
      exact cons_ne_nil _ _
    · rw [if_neg single]
      exact ih _ _ (Or.inl (cons_ne_nil _ _))

theorem le_value (start : Nat) (digits : List Nat) (positive : 0 < base) :
    start ≤ value base start digits := by
  induction digits generalizing start with
  | nil => exact Nat.le_refl start
  | cons digit rest ih =>
    have grown : start ≤ start * base + digit :=
      Nat.le_add_right_of_le (Nat.le_mul_of_pos_right start positive)
    exact Nat.le_trans grown (ih _)

theorem digit_fits {base start digit cap : Nat} (positive : 0 < base)
    (within : start * base + digit ≤ cap) : ¬ (cap < digit ∨ (cap - digit) / base < start) := by
  rw [not_or, Nat.not_lt, Nat.not_lt, Nat.le_div_iff_mul_le positive]
  omega

/-- The last `width` digits of `n`, with leading zeros. -/
def fixed (base : Nat) : Nat → Nat → List Nat
  | 0, _ => []
  | width + 1, n => fixed base width (n / base) ++ [n % base]

theorem value_append (start : Nat) (first second : List Nat) :
    value base start (first ++ second) = value base (value base start first) second := by
  rw [value, value, value, foldl_append]

theorem fixed_length : (fixed base width n).length = width := by
  induction width generalizing n with
  | zero => rfl
  | succ width ih => rw [fixed, length_append, ih, length_singleton]

theorem fixed_digits (positive : 0 < base) : ∀ d ∈ fixed base width n, d < base := by
  induction width generalizing n with
  | zero => exact fun _ absurd_ => absurd absurd_ not_mem_nil
  | succ width ih =>
    intro d mem
    rcases mem_append.mp mem with front | last
    · exact ih _ d front
    · rw [mem_singleton.mp last]
      exact Nat.mod_lt n positive

theorem value_fixed : value base 0 (fixed base width n) = n % base ^ width := by
  induction width generalizing n with
  | zero => rw [pow_zero, Nat.mod_one]; rfl
  | succ width ih =>
    rw [fixed, value_append, ih, pow_succ', Nat.mod_mul]
    dsimp only [value, foldl_cons, foldl_nil]
    rw [Nat.mul_comm, Nat.add_comm]

theorem value_lt (digits : List Nat) (small : ∀ d ∈ digits, d < base) :
    value base 0 digits < base ^ digits.length := by
  induction digits using List.reverseRecOn with
  | nil => exact Nat.one_pos
  | append_singleton digits digit ih =>
    have front := ih fun d mem => small d (mem_append_left _ mem)
    have last := small digit (mem_append_right _ (mem_singleton_self digit))
    have scaled : (value base 0 digits + 1) * base ≤ base ^ digits.length * base :=
      Nat.mul_le_mul_right base front
    rw [Nat.add_mul, Nat.one_mul] at scaled
    rw [value_append, length_append, length_singleton, pow_succ]
    dsimp only [value, foldl_cons, foldl_nil] at scaled ⊢
    omega

theorem fixed_value (digits : List Nat) (small : ∀ d ∈ digits, d < base) :
    fixed base digits.length (value base 0 digits) = digits := by
  induction digits using List.reverseRecOn with
  | nil => rfl
  | append_singleton digits digit ih =>
    have front := ih fun d mem => small d (mem_append_left _ mem)
    have last := small digit (mem_append_right _ (mem_singleton_self digit))
    have positive : 0 < base := Nat.lt_of_le_of_lt (Nat.zero_le digit) last
    have quotient : (value base 0 digits * base + digit) / base = value base 0 digits := by
      rw [Nat.mul_comm, Nat.mul_add_div positive, Nat.div_eq_of_lt last, Nat.add_zero]
    have remainder : (value base 0 digits * base + digit) % base = digit := by
      rw [Nat.mul_comm, Nat.mul_add_mod, Nat.mod_eq_of_lt last]
    have number : value base 0 (digits ++ [digit]) = value base 0 digits * base + digit :=
      value_append _ 0 _ [digit]
    rw [length_append, length_singleton, fixed, number, quotient, remainder, front]

end Align.Numerals
