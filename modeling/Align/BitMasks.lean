import Mathlib

/-! Bit masks over a block of positions. A mask is read through its bits only:
masks built from a predicate, running parities with the two usual ways of
computing them (carry-less multiplication by all ones, a ladder of shifts), and
the enumeration of the set bits from the lowest up. -/
namespace Align.BitMasks
open List

/-- The mask of width `w` whose bit `i` is `bit i`. -/
def ofBits (w : Nat) (bit : Nat → Bool) : BitVec w :=
  (BitVec.ofBoolListLE ((List.range w).map bit)).setWidth w

@[simp]
theorem ofBits_getLsbD (w : Nat) (bit : Nat → Bool) (i : Nat) :
    (ofBits w bit).getLsbD i = (decide (i < w) && bit i) := by
  rw [ofBits, BitVec.getLsbD_setWidth, BitVec.getLsbD_ofBoolListLE]
  by_cases inside : i < w
  · simp [inside]
  · simp [inside]

/-- Exclusive or of the first `count` bits. -/
def parity (bit : Nat → Bool) : Nat → Bool
  | 0 => false
  | count + 1 => parity bit count ^^ bit count

theorem parity_congr (bit other : Nat → Bool) (count : Nat)
    (same : ∀ i < count, bit i = other i) : parity bit count = parity other count := by
  induction count with
  | zero => rfl
  | succ count ih =>
    rw [parity, parity, ih (fun i inside => same i (by omega)), same count (by omega)]

/-- The first `count` steps of a product of polynomials over the two-element
field: one shifted copy of the second factor for each set bit of the first. -/
def clmulSteps {w : Nat} (a b : BitVec w) (count : Nat) : BitVec (2 * w) :=
  (List.range count).foldl
    (fun acc i => if a.getLsbD i then acc ^^^ (b.setWidth (2 * w) <<< i) else acc) 0

def clmul {w : Nat} (a b : BitVec w) : BitVec (2 * w) := clmulSteps a b w

variable (a b : BitVec w) (count : Nat)

theorem clmulSteps_succ :
    clmulSteps a b (count + 1) =
      if a.getLsbD count then clmulSteps a b count ^^^ (b.setWidth (2 * w) <<< count)
      else clmulSteps a b count := by
  simp [clmulSteps, range_succ]

theorem clmulSteps_ones (inside : k < w) :
    (clmulSteps a (BitVec.allOnes w) count).getLsbD k = parity a.getLsbD (min count (k + 1)) := by
  induction count with
  | zero => simp [clmulSteps, parity]
  | succ count ih =>
    have shifted : ((BitVec.allOnes w).setWidth (2 * w) <<< count).getLsbD k = decide (count ≤ k) := by
      by_cases reached : count ≤ k
      · simp [reached]
        omega
      · simp [reached]
    rw [clmulSteps_succ]
    by_cases reached : count ≤ k
    · rw [Nat.min_eq_left (by omega), parity, ← Nat.min_eq_left (by omega : count ≤ k + 1), ← ih,
        Nat.min_eq_left (by omega : count ≤ k + 1)]
      cases a.getLsbD count <;> simp [BitVec.getLsbD_xor, shifted, reached]
    · rw [Nat.min_eq_right (by omega), ← Nat.min_eq_right (by omega : k + 1 ≤ count), ← ih]
      cases a.getLsbD count <;> simp [BitVec.getLsbD_xor, shifted, reached]

theorem clmul_ones (inside : k < w) :
    (clmul a (BitVec.allOnes w)).getLsbD k = parity a.getLsbD (k + 1) := by
  have steps := clmulSteps_ones a w inside
  rwa [Nat.min_eq_right (by omega)] at steps

/-- `y` holds the parities of the `count` bits of `x` up to each position. -/
def Ladder {w : Nat} (x : BitVec w) (count : Nat) (y : BitVec w) : Prop :=
  ∀ k < w, y.getLsbD k = (parity x.getLsbD (k + 1) ^^ parity x.getLsbD (k + 1 - count))

theorem ladder_start (x : BitVec w) : Ladder x 1 x := by
  intro k _
  simp only [parity, Nat.add_sub_cancel]
  cases parity x.getLsbD k <;> simp

theorem ladder_double {x : BitVec w} {count : Nat} (covered : Ladder x count y) : Ladder x (2 * count) (y ^^^ (y <<< count)) := by
  intro k inside
  rw [BitVec.getLsbD_xor, BitVec.getLsbD_shiftLeft, covered k inside]
  by_cases reached : k < count
  · have zero : k + 1 - count = 0 := by omega
    have zero' : k + 1 - 2 * count = 0 := by omega
    simp [reached, zero, zero', parity]
  · have position : k - count + 1 = k + 1 - count := by omega
    have start : k - count + 1 - count = k + 1 - 2 * count := by omega
    rw [covered (k - count) (by omega), start, position]
    simp [inside, reached]

variable (x : BitVec w)

theorem ladder_full (count : Nat) (covered : Ladder x count y) (wide : w ≤ count) (inside : k < w) :
    y.getLsbD k = parity x.getLsbD (k + 1) := by
  have zero : k + 1 - count = 0 := by omega
  rw [covered k inside, zero, parity, Bool.xor_false]

def positions {w : Nat} (x : BitVec w) : List Nat := (List.range w).filter (x.getLsbD ·)

/-- Take the lowest set bit and clear it until none is left. -/
def drain {w : Nat} : Nat → BitVec w → List Nat
  | 0, _ => []
  | fuel + 1, x => if x = 0 then [] else x.ctz.toNat :: drain fuel (x &&& (x - 1))

theorem carry_ones (inside : k ≤ w) :
    BitVec.carry k x (BitVec.allOnes w) false = decide (∃ j < k, x.getLsbD j = true) := by
  induction k with
  | zero => simp
  | succ k ih =>
    rw [BitVec.carry_succ, ih (by omega), BitVec.getLsbD_allOnes, decide_eq_true (by omega : k < w)]
    rw [Bool.eq_iff_iff]
    simp only [Bool.atLeastTwo, Bool.and_true, Bool.true_and, Bool.or_eq_true, Bool.and_eq_true,
      decide_eq_true_eq, Nat.exists_lt_succ_right]
    rw [or_iff_left_of_imp And.left, or_comm]

theorem clear_lowest (inside : k < w) :
    (x &&& (x - 1)).getLsbD k = (x.getLsbD k && decide (∃ j < k, x.getLsbD j = true)) := by
  have minus : x - 1 = x + BitVec.allOnes w := by
    rw [BitVec.sub_eq_add_neg]
    congr 1
    exact BitVec.neg_one_eq_allOnes
  rw [BitVec.getLsbD_and, minus, BitVec.getLsbD_add inside, carry_ones x (by omega),
    BitVec.getLsbD_allOnes, decide_eq_true inside]
  cases x.getLsbD k <;> simp

theorem filter_lowest (marked after : Nat → Bool) (inside : first < width)
    (reached : low ≤ first) (set : marked first = true) (below : ∀ j, low ≤ j → j < first → marked j = false)
    (kept : ∀ j, first < j → j < width → after j = marked j) :
    (List.range' low (width - low)).filter marked =
      first :: (List.range' (first + 1) (width - (first + 1))).filter after := by
  have spread : List.range' low (width - low) =
    List.range' low (first - low) ++ first :: List.range' (first + 1) (width - (first + 1)) := by
    have count : width - low = (first - low) + ((width - (first + 1)) + 1) := by omega
    have middle : low + (first - low) = first := by omega
    rw [count, ← range'_append_1, middle, range'_succ]
  have before : (List.range' low (first - low)).filter marked = [] := by
    rw [filter_eq_nil_iff]
    intro j member
    rw [mem_range'_1] at member
    simp [below j member.1 (by omega)]
  have same : (List.range' (first + 1) (width - (first + 1))).filter after =
    (List.range' (first + 1) (width - (first + 1))).filter marked := by
    apply filter_congr
    intro j member
    rw [mem_range'_1] at member
    exact kept j (by omega) (by omega)
  rw [spread, filter_append, before, filter_cons_of_pos set, same, nil_append]

theorem drain_from (low : Nat) (x : BitVec w) (enough : w - low ≤ fuel) (bounded : low ≤ w)
    (empty : ∀ j < low, x.getLsbD j = false) :
    drain fuel x = (List.range' low (w - low)).filter (x.getLsbD ·) := by
  induction fuel generalizing low x with
  | zero =>
    have none : w - low = 0 := by omega
    simp [drain, none]
  | succ fuel ih =>
    by_cases zero : x = 0
    · simp [drain, zero]
    have set := BitVec.getLsbD_true_ctz_of_ne_zero zero
    have below := fun j => BitVec.getLsbD_false_of_lt_ctz (x := x) (i := j)
    rw [drain, if_neg zero]
    generalize x.ctz.toNat = t at set below
    have inside : t < w := by
      by_contra outside
      rw [BitVec.getLsbD_of_ge x t (by omega)] at set
      contradiction
    have reached : low ≤ t := by
      by_contra under
      rw [empty t (by omega)] at set
      contradiction
    -- Bits up to `t` are gone afterwards, the ones above it are untouched.
    have cleared : ∀ j ≤ t, (x &&& (x - 1)).getLsbD j = false := by
      intro j upTo
      rw [clear_lowest x (by omega)]
      have nothing : ¬ ∃ i < j, x.getLsbD i = true := by
        rintro ⟨i, less, lit⟩
        rw [below i (by omega)] at lit
        contradiction
      simp only [nothing, decide_false, Bool.and_false]
    have kept : ∀ j, t < j → j < w → (x &&& (x - 1)).getLsbD j = x.getLsbD j := by
      intro j above within
      rw [clear_lowest x within, decide_eq_true ⟨t, above, set⟩, Bool.and_true]
    rw [ih (t + 1) (x &&& (x - 1)) (by omega) (by omega) (fun j less => cleared j (by omega)),
      filter_lowest _ _ inside reached set (fun j _ => below j) kept]

theorem drain_positions : drain w x = positions x := by
  rw [drain_from 0 x (by omega) (by omega) (by simp), Nat.sub_zero, positions, range_eq_range']

/-- Take the lowest set nibble and clear all of it until none is left. -/
def drainNibbles {w : Nat} : Nat → BitVec w → List Nat
  | 0, _ => []
  | fuel + 1, x =>
      if x = 0 then []
      else
        let lane := x.ctz.toNat >>> 2
        lane :: drainNibbles fuel (x &&& ~~~(BitVec.ofNat w 0xF <<< (lane <<< 2)))

theorem nibble_cleared (inside : k < w) :
    (x &&& ~~~(BitVec.ofNat w 0xF <<< (lane <<< 2))).getLsbD k =
      (x.getLsbD k && decide (k / 4 ≠ lane)) := by
  have position : lane <<< 2 = 4 * lane := by
    rw [Nat.shiftLeft_eq, Nat.mul_comm]
  have nibble : ∀ j, Nat.testBit 0xF j = decide (j < 4) := by
    intro j
    rw [show (0xF : Nat) = 2 ^ 4 - 1 from rfl, Nat.testBit_two_pow_sub_one]
  rw [BitVec.getLsbD_and, BitVec.getLsbD_not, BitVec.getLsbD_shiftLeft, position, BitVec.getLsbD_ofNat,
    nibble, decide_eq_true inside, Bool.true_and]
  congr 1
  rw [Bool.eq_iff_iff]
  simp only [Bool.true_and, Bool.not_eq_true', Bool.and_eq_false_iff, Bool.not_eq_false', decide_eq_true_eq,
    decide_eq_false_iff_not]
  omega

theorem drainNibbles_from (low : Nat) (marked : Nat → Bool) (x : BitVec (4 * lanes))
    (enough : lanes - low ≤ fuel) (bounded : low ≤ lanes)
    (shape : ∀ k < 4 * lanes, x.getLsbD k = (marked (k / 4) && decide (low ≤ k / 4))) :
    drainNibbles fuel x = (List.range' low (lanes - low)).filter marked := by
  induction fuel generalizing low x with
  | zero =>
    have none : lanes - low = 0 := by omega
    simp [drainNibbles, none]
  | succ fuel ih =>
    by_cases zero : x = 0
    · have unmarked : (List.range' low (lanes - low)).filter marked = [] := by
        rw [filter_eq_nil_iff]
        intro lane member set
        rw [mem_range'_1] at member
        have bit := shape (4 * lane) (by omega)
        rw [zero, Nat.mul_div_cancel_left lane (by omega), set, decide_eq_true member.1] at bit
        simp at bit
      rw [drainNibbles, if_pos zero, unmarked]
    · have set := BitVec.getLsbD_true_ctz_of_ne_zero zero
      have below := fun j => BitVec.getLsbD_false_of_lt_ctz (x := x) (i := j)
      rw [drainNibbles, if_neg zero]
      generalize x.ctz.toNat = t at set below
      have inside : t < 4 * lanes := by
        by_contra outside
        rw [BitVec.getLsbD_of_ge x t (by omega)] at set
        contradiction
      have quarter : t >>> 2 = t / 4 := Nat.shiftRight_eq_div_pow t 2
      rw [shape t inside, Bool.and_eq_true, decide_eq_true_eq] at set
      -- The nibbles below `t`'s own are empty, as their lowest bits are.
      have empty : ∀ lane, low ≤ lane → lane < t / 4 → marked lane = false := by
        intro lane reached less
        have bit := shape (4 * lane) (by omega)
        rw [below (4 * lane) (by omega), Nat.mul_div_cancel_left lane (by omega),
          decide_eq_true reached, Bool.and_true] at bit
        exact bit.symm
      simp only [quarter]
      rw [ih (t / 4 + 1) _ (by omega) (by omega)]
      · exact (filter_lowest _ _ (by omega) set.2 set.1 empty fun _ _ _ => rfl).symm
      · intro k within
        rw [nibble_cleared x within, shape k within, Bool.and_assoc]
        by_cases reached : low ≤ k / 4
        · by_cases early : k / 4 < t / 4
          · rw [empty (k / 4) reached early, Bool.false_and, Bool.false_and]
          · congr 1
            rw [Bool.eq_iff_iff]
            simp only [Bool.and_eq_true, decide_eq_true_eq]
            omega
        · have later : ¬ t / 4 + 1 ≤ k / 4 := by omega
          rw [decide_eq_false reached, decide_eq_false later, Bool.false_and]

theorem drainNibbles_positions (marked : Nat → Bool) (x : BitVec (4 * lanes))
    (shape : ∀ k < 4 * lanes, x.getLsbD k = marked (k / 4)) :
    drainNibbles lanes x = (List.range lanes).filter marked := by
  rw [drainNibbles_from 0 _ x (by omega) (by omega), Nat.sub_zero,
    range_eq_range']
  intro k inside
  rw [shape k inside, decide_eq_true (Nat.zero_le _), Bool.and_true]

end Align.BitMasks
