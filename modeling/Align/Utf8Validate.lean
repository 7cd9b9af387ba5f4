import Align.Simd
import Align.Utf8

/-! The vectorised UTF-8 validator. Three nibble tables classify each byte
together with the one before it; two saturating subtractions say where a second
or third continuation byte is due. Blocks carry the previous block's last bytes
and whether it ended inside a sequence. The scalar lane is the standard
library's check and is taken as exact. -/
namespace Align.Utf8Validate
open Simd Utf8 List

abbrev Bytes := List UInt8

namespace Tables

def TOO_SHORT : UInt8 := (1 : UInt8) <<< 0
def TOO_LONG : UInt8 := (1 : UInt8) <<< 1
def OVERLONG_3 : UInt8 := (1 : UInt8) <<< 2
def TOO_LARGE : UInt8 := (1 : UInt8) <<< 3
def SURROGATE : UInt8 := (1 : UInt8) <<< 4
def OVERLONG_2 : UInt8 := (1 : UInt8) <<< 5
def TOO_LARGE_1000 : UInt8 := (1 : UInt8) <<< 6
def OVERLONG_4 : UInt8 := (1 : UInt8) <<< 6
def TWO_CONTS : UInt8 := (1 : UInt8) <<< 7
def CARRY : UInt8 := TOO_SHORT ||| TOO_LONG ||| TWO_CONTS

/-- By the high nibble of the lead byte. -/
def B1H : Bytes :=
  [TOO_LONG, TOO_LONG, TOO_LONG, TOO_LONG, TOO_LONG, TOO_LONG, TOO_LONG, TOO_LONG,
    TWO_CONTS, TWO_CONTS, TWO_CONTS, TWO_CONTS,
    TOO_SHORT ||| OVERLONG_2,
    TOO_SHORT,
    TOO_SHORT ||| OVERLONG_3 ||| SURROGATE,
    TOO_SHORT ||| TOO_LARGE ||| TOO_LARGE_1000 ||| OVERLONG_4]

def B1L : Bytes :=
  [CARRY ||| OVERLONG_2 ||| OVERLONG_3 ||| OVERLONG_4,
    CARRY ||| OVERLONG_2,
    CARRY,
    CARRY,
    CARRY ||| TOO_LARGE,
    CARRY ||| TOO_LARGE ||| TOO_LARGE_1000,
    CARRY ||| TOO_LARGE ||| TOO_LARGE_1000,
    CARRY ||| TOO_LARGE ||| TOO_LARGE_1000,
    CARRY ||| TOO_LARGE ||| TOO_LARGE_1000,
    CARRY ||| TOO_LARGE ||| TOO_LARGE_1000,
    CARRY ||| TOO_LARGE ||| TOO_LARGE_1000,
    CARRY ||| TOO_LARGE ||| TOO_LARGE_1000,
    CARRY ||| TOO_LARGE ||| TOO_LARGE_1000,
    CARRY ||| TOO_LARGE ||| TOO_LARGE_1000 ||| SURROGATE,
    CARRY ||| TOO_LARGE ||| TOO_LARGE_1000,
    CARRY ||| TOO_LARGE ||| TOO_LARGE_1000]

/-- By the high nibble of the current byte. -/
def B2H : Bytes :=
  [TOO_SHORT, TOO_SHORT, TOO_SHORT, TOO_SHORT, TOO_SHORT, TOO_SHORT, TOO_SHORT, TOO_SHORT,
    TOO_LONG ||| OVERLONG_2 ||| TWO_CONTS ||| OVERLONG_3 ||| TOO_LARGE_1000 ||| OVERLONG_4,
    TOO_LONG ||| OVERLONG_2 ||| TWO_CONTS ||| OVERLONG_3 ||| TOO_LARGE,
    TOO_LONG ||| OVERLONG_2 ||| TWO_CONTS ||| SURROGATE ||| TOO_LARGE,
    TOO_LONG ||| OVERLONG_2 ||| TWO_CONTS ||| SURROGATE ||| TOO_LARGE,
    TOO_SHORT, TOO_SHORT, TOO_SHORT, TOO_SHORT]

end Tables

open Tables

def validateUtf8Scalar (bytes : Bytes) : Bool := bytes.toByteArray.validateUTF8

/-! The block loop, shared by both instruction sets. -/

/-- What a block of `w` bytes needs: the all-ASCII test, the error lanes given
the block before, and the final test for an empty error register. -/
structure Kernel (w : Nat) where
  ascii : Lanes w → Bool
  blockErr : Lanes w → Lanes w → Lanes w
  zero : Lanes w → Bool

/-- The cap of the incompleteness test: `0xff` except in the last three lanes. -/
def incMax (w : Nat) : Lanes w := fun k =>
  if k.val = w - 3 then 0xf0 - 1
  else if k.val = w - 2 then 0xe0 - 1
  else if k.val = w - 1 then 0xc0 - 1
  else 0xff

structure Registers (w : Nat) where
  err : Lanes w
  prevInput : Lanes w
  prevIncomplete : Lanes w

def Registers.start (w : Nat) : Registers w := ⟨splat w 0, splat w 0, splat w 0⟩

def absorb {w : Nat} (kernel : Kernel w) (r : Registers w) (cur : Lanes w) : Registers w :=
  if kernel.ascii cur then ⟨Simd.or r.err r.prevIncomplete, cur, splat w 0⟩
  else ⟨Simd.or r.err (kernel.blockErr cur r.prevInput), cur, subs cur (incMax w)⟩

def finish {w : Nat} (kernel : Kernel w) (r : Registers w) : Bool :=
  kernel.zero (Simd.or r.err r.prevIncomplete)

def validateBlocks {w : Nat} [NeZero w] (kernel : Kernel w) (input : Bytes) (r : Registers w)
    (i : Nat) : Bool :=
  if i + w ≤ input.length then
    validateBlocks kernel input (absorb kernel r (load w input i)) (i + w)
  else if i < input.length then
    -- The tail is copied into a zeroed buffer of one block.
    let buf := input.drop i ++ List.replicate (w - (input.length - i)) 0
    finish kernel (absorb kernel r (load w buf 0))
  else finish kernel r
termination_by input.length - i
decreasing_by have := Nat.pos_of_neZero w; omega

namespace Avx2

def lowMask : Lanes 32 := splat 32 0x0f

def highNib (v : Lanes 32) : Lanes 32 := Simd.and (srli16 v 4) lowMask

def table (entries : Bytes) : Lanes 32 := broadcast128 (load 16 entries 0)

def blockErr (cur prev : Lanes 32) : Lanes 32 :=
  let shifted := permute2x128 prev cur 0x21
  let prev1 := alignr cur shifted 15
  let prev2 := alignr cur shifted 14
  let prev3 := alignr cur shifted 13
  let sc := Simd.and
    (Simd.and (shuffle (table B1H) (highNib prev1)) (shuffle (table B1L) (Simd.and prev1 lowMask)))
    (shuffle (table B2H) (highNib cur))
  let isThird := subs prev2 (splat 32 0x60)
  let isFourth := subs prev3 (splat 32 0x70)
  let must2380 := Simd.and (Simd.or isThird isFourth) (splat 32 0x80)
  Simd.xor must2380 sc

def kernel : Kernel 32 :=
  { ascii := fun cur => movemask cur == 0
    blockErr := blockErr
    zero := fun err => testz err err }

end Avx2

namespace Neon

def table (entries : Bytes) : Lanes 16 := load 16 entries 0

def blockErr (cur prev : Lanes 16) : Lanes 16 :=
  let prev1 := vext prev cur 15
  let prev2 := vext prev cur 14
  let prev3 := vext prev cur 13
  let sc := Simd.and
    (Simd.and (vqtbl1 (table B1H) (vshr prev1 4))
      (vqtbl1 (table B1L) (Simd.and prev1 (splat 16 0x0f))))
    (vqtbl1 (table B2H) (vshr cur 4))
  let isThird := subs prev2 (splat 16 0x60)
  let isFourth := subs prev3 (splat 16 0x70)
  let must2380 := Simd.and (Simd.or isThird isFourth) (splat 16 0x80)
  Simd.xor must2380 sc

def kernel : Kernel 16 :=
  { ascii := fun cur => decide (vmaxv cur < 0x80)
    blockErr := blockErr
    zero := fun err => vmaxv err == 0 }

end Neon

def validateUtf8Avx2 (input : Bytes) : Bool := validateBlocks Avx2.kernel input (.start 32) 0

def validateUtf8Neon (input : Bytes) : Bool := validateBlocks Neon.kernel input (.start 16) 0

/-- The compilation target, with what run-time feature detection reports. -/
inductive Target where
  | x86_64 (avx2 : Bool)
  | aarch64
  | other

def isAscii (bytes : Bytes) : Bool := bytes.all (· < 0x80)

def validateUtf8 (target : Target) (bytes : Bytes) : Bool :=
  if bytes.isEmpty then true
  else match target with
    | .x86_64 avx2 =>
        if bytes.length < 32 then validateUtf8Scalar bytes
        else if 33 ≤ bytes.length && bytes.length < 64 && isAscii bytes then true
        else if avx2 then validateUtf8Avx2 bytes
        else validateUtf8Scalar bytes
    | .aarch64 => validateUtf8Scalar bytes
    | .other => validateUtf8Scalar bytes

def special (high low next : Nat) : UInt8 :=
  B1H.getD high 0 &&& B1L.getD low 0 &&& B2H.getD next 0

/-- Bit 7 where a second or third continuation byte is due. -/
def must (b3 b2 : UInt8) : UInt8 :=
  ((if 0x60 ≤ b2 then b2 - 0x60 else 0) ||| (if 0x70 ≤ b3 then b3 - 0x70 else 0)) &&& 0x80

/-- The error bits of byte `cur` behind `b1`, `b2` and `b3`, the nearest first. -/
def errorBits (b3 b2 b1 cur : UInt8) : UInt8 :=
  must b3 b2 ^^^ special (b1.toNat / 16) (b1.toNat % 16) (cur.toNat / 16)

theorem byte_cases {P : UInt8 → Prop} (all : ∀ n : Fin 256, P (UInt8.ofNat n)) (b : UInt8) : P b := by
  have here := all ⟨b.toNat, b.toNat_lt⟩
  rwa [UInt8.ofNat_toNat] at here

theorem or_and (a b c : UInt8) : (a ||| b) &&& c = a &&& c ||| b &&& c := by
  apply UInt8.eq_of_toBitVec_eq
  ext i
  simp [Bool.and_or_distrib_right]

theorem must_eq (b3 b2 : UInt8) :
    must b3 b2 = if 0xE0 ≤ b2.toNat ∨ 0xF0 ≤ b3.toNat then 0x80 else 0 := by
  have third : (if 0x60 ≤ b2 then b2 - 0x60 else 0) &&& (0x80 : UInt8) =
    if 0xE0 ≤ b2.toNat then 0x80 else 0 := by
    revert b2
    exact byte_cases (by decide +kernel)
  have fourth : (if 0x70 ≤ b3 then b3 - 0x70 else 0) &&& (0x80 : UInt8) =
    if 0xF0 ≤ b3.toNat then 0x80 else 0 := by
    revert b3
    exact byte_cases (by decide +kernel)
  rw [must, or_and, third, fourth]
  by_cases two : 0xE0 ≤ b2.toNat <;> by_cases three : 0xF0 ≤ b3.toNat <;> simp [two, three]

/-- Behind a byte that is no lead: a continuation byte shows as `TWO_CONTS` or
`TOO_LONG`, anything else is quiet. -/
theorem special_trail (high low next : Fin 16) (trail : high.val < 12) :
    special high low next =
      if 8 ≤ next.val ∧ next.val < 12 then (if 8 ≤ high.val then 0x80 else 0x02) else 0 := by
  revert high low next
  decide +kernel

theorem special_lead (high low next : Fin 16) (lead : 12 ≤ high.val) :
    special high low next = 0 ↔
      (8 ≤ next.val ∧ next.val < 12) ∧
        (high.val = 12 ∧ 2 ≤ low.val ∨ high.val = 13 ∨
          high.val = 14 ∧ ¬ (low.val = 0 ∧ next.val < 10) ∧ ¬ (low.val = 13 ∧ 10 ≤ next.val) ∨
          high.val = 15 ∧ low.val < 5 ∧ ¬ (low.val = 0 ∧ next.val < 9) ∧
            ¬ (low.val = 4 ∧ 9 ≤ next.val)) := by
  revert high low next
  decide +kernel

theorem second_isSome (b : UInt8) (lead : 0xC0 ≤ first.toNat) :
    (second first b).isSome = true ↔
      IsCont b ∧ (0xC2 ≤ first.toNat ∧ first.toNat < 0xE0 ∨
        (0xE0 ≤ first.toNat ∧ first.toNat < 0xF0 ∧ ¬ (first.toNat = 0xE0 ∧ b.toNat < 0xA0) ∧
          ¬ (first.toNat = 0xED ∧ 0xA0 ≤ b.toNat)) ∨
        (0xF0 ≤ first.toNat ∧ first.toNat < 0xF5 ∧ ¬ (first.toNat = 0xF0 ∧ b.toNat < 0x90) ∧
          ¬ (first.toNat = 0xF4 ∧ 0x90 ≤ b.toNat))) := by
  unfold second
  by_cases cont : IsCont b
  · simp only [cont, not_true_eq_false, ↓reduceIte, true_and]
    split_ifs <;> simp <;> omega
  · simp [cont]

/-! The last three bytes determine the machine's state. -/

def Tracks : State → UInt8 → UInt8 → UInt8 → Prop
  | .complete, b3, b2, b1 => b1.toNat < 0xC0 ∧ b2.toNat < 0xE0 ∧ b3.toNat < 0xF0
  | .lead first, b3, b2, b1 =>
      b1 = first ∧ 0xC0 ≤ first.toNat ∧ b2.toNat < 0xE0 ∧ b3.toNat < 0xF0
  | .need1, b3, b2, b1 => IsCont b1 ∧ b2.toNat < 0xF0 ∧ (0xE0 ≤ b2.toNat ∨ 0xF0 ≤ b3.toNat)
  | .need2, _, b2, b1 => IsCont b1 ∧ 0xF0 ≤ b2.toNat

theorem special_after (b1 cur : UInt8) (trail : b1.toNat < 0xC0) :
    special (b1.toNat / 16) (b1.toNat % 16) (cur.toNat / 16) =
      if IsCont cur then (if 0x80 ≤ b1.toNat then 0x80 else 0x02) else 0 := by
  have bound' := cur.toNat_lt
  have nibbles := special_trail ⟨b1.toNat / 16, by omega⟩ ⟨b1.toNat % 16, by omega⟩
    ⟨cur.toNat / 16, by omega⟩ (by simp only; omega)
  simp only at nibbles
  rw [nibbles]
  have cont : (8 ≤ cur.toNat / 16 ∧ cur.toNat / 16 < 12) ↔ IsCont cur := by
    rw [IsCont]
    omega
  have upper : 8 ≤ b1.toNat / 16 ↔ 0x80 ≤ b1.toNat := by omega
  simp only [cont, upper]

theorem special_second (lead : 0xC0 ≤ first.toNat) :
    special (first.toNat / 16) (first.toNat % 16) (b.toNat / 16) = 0 ↔
      (second first b).isSome = true := by
  have bound := first.toNat_lt
  have bound' := b.toNat_lt
  have nibbles := special_lead ⟨first.toNat / 16, by omega⟩ ⟨first.toNat % 16, by omega⟩
    ⟨b.toNat / 16, by omega⟩ (by simp only; omega)
  simp only at nibbles
  rw [nibbles, second_isSome b lead, IsCont]
  omega

variable {state : State}

/-- One byte: the error bits are empty exactly when the machine moves, and the
state stays determined by the last three bytes. -/
theorem error_step (cur : UInt8) (tracks : Tracks state b3 b2 b1) :
    (errorBits b3 b2 b1 cur = 0 ↔ (step state cur).isSome = true) ∧
      ∀ next, step state cur = some next → Tracks next b2 b1 cur := by
  cases state with
  | complete =>
    obtain ⟨trail, noThird, noFourth⟩ := tracks
    have quiet : must b3 b2 = 0 := by
      rw [must_eq, if_neg (by omega)]
    rw [errorBits, quiet, UInt8.zero_xor, special_after _ _ trail, step]
    constructor
    · by_cases ascii : cur.toNat < 0x80
      · have notCont : ¬ IsCont cur := fun cont => by have := cont.1; omega
        simp [ascii, notCont]
      by_cases lead : cur.toNat < 0xC0
      · have cont : IsCont cur := ⟨by omega, lead⟩
        split_ifs <;> decide
      · have notCont : ¬ IsCont cur := fun cont => lead cont.2
        simp [ascii, lead, notCont]
    · intro next moves
      split_ifs at moves with ascii cont
      · cases moves
        exact ⟨by omega, by omega, by omega⟩
      · cases moves
        exact ⟨rfl, by omega, by omega, by omega⟩
  | lead first =>
    obtain ⟨rfl, lead, noThird, noFourth⟩ := tracks
    have quiet : must b3 b2 = 0 := by
      rw [must_eq, if_neg (by omega)]
    rw [errorBits, quiet, UInt8.zero_xor, special_second lead, step]
    refine ⟨Iff.rfl, ?_⟩
    intro next moves
    unfold second at moves
    split_ifs at moves with cont short two three judged four judged'
    · cases moves
      exact ⟨cont.2, by omega, by omega⟩
    · cases moves
      exact ⟨cont, by omega, by omega⟩
    · cases moves
      exact ⟨cont, by omega⟩
  | need1 =>
    obtain ⟨⟨low, high⟩, belowF0, due⟩ := tracks
    have raised : must b3 b2 = 0x80 := by
      rw [must_eq, if_pos (by omega)]
    rw [errorBits, raised, special_after _ _ high, if_pos low, step]
    by_cases cont : IsCont cur
    · simp [cont, Tracks]
      exact ⟨cont.2, by omega, by omega⟩
    · simp [cont]
  | need2 =>
    obtain ⟨⟨low, high⟩, due⟩ := tracks
    have raised : must b3 b2 = 0x80 := by
      rw [must_eq, if_pos (by omega)]
    rw [errorBits, raised, special_after _ _ high, if_pos low, step]
    by_cases cont : IsCont cur
    · simp [cont, Tracks]
      exact ⟨by omega, Or.inr due⟩
    · simp [cont]

/-! The machine along a byte stream, zero before its start. -/

section Stream
variable (byte : Nat → UInt8)

/-- The byte `d` places before position `p`. -/
def back (p d : Nat) : UInt8 := if d ≤ p then byte (p - d) else 0

def stateAt : Nat → Option State
  | 0 => some .complete
  | p + 1 => (stateAt p).bind (step · (byte p))

def errorAt (p : Nat) : UInt8 :=
  errorBits (back byte p 3) (back byte p 2) (back byte p 1) (byte p)

theorem back_succ (p d : Nat) : back byte (p + 1) (d + 1) = back byte p d := by
  simp [back, Nat.add_sub_add_right]

theorem back_here (p : Nat) : back byte (p + 1) 1 = byte p := by
  simp [back]

theorem stateAt_tracks (state : State) (reached : stateAt byte p = some state) :
    Tracks state (back byte p 3) (back byte p 2) (back byte p 1) := by
  induction p generalizing state with
  | zero =>
    cases reached
    simp [Tracks, back]
  | succ p ih =>
    rw [stateAt, Option.bind_eq_some_iff] at reached
    obtain ⟨before, earlier, moves⟩ := reached
    have next := (error_step _ (ih before earlier)).2 state moves
    rwa [back_succ, back_succ, back_here]

theorem stateAt_next (p : Nat) :
    (stateAt byte (p + 1)).isSome = true ↔ (stateAt byte p).isSome = true ∧ errorAt byte p = 0 := by
  cases reached : stateAt byte p with
  | none => simp [stateAt, reached]
  | some state =>
    have quiet := (error_step (byte p) (stateAt_tracks _ _ reached)).1
    simp [stateAt, reached, errorAt, quiet]

theorem stateAt_run (p count : Nat) :
    (stateAt byte (p + count)).isSome = true ↔
      (stateAt byte p).isSome = true ∧ ∀ k < count, errorAt byte (p + k) = 0 := by
  induction count with
  | zero => simp
  | succ count ih =>
    rw [← Nat.add_assoc, stateAt_next, ih, Nat.forall_lt_succ_right, and_assoc]

theorem step_ascii (state : State) (b : UInt8) (ascii : b.toNat < 0x80) :
    step state b = if state = .complete then some .complete else none := by
  have notCont : ¬ IsCont b := fun cont => by have := cont.1; omega
  cases state <;> simp [step, second, ascii, notCont]

theorem ascii_run {count : Nat} (ascii : ∀ k < count + 1, (byte (p + k)).toNat < 0x80) :
    stateAt byte (p + (count + 1)) =
      if stateAt byte p = some .complete then some .complete else none := by
  induction count with
  | zero =>
    rw [Nat.zero_add, stateAt]
    cases stateAt byte p with
    | none => rfl
    | some state => simp [step_ascii state (byte p) (ascii 0 (by omega))]
  | succ count ih =>
    rw [← Nat.add_assoc, stateAt, ih fun k below => ascii k (by omega)]
    split
    · simp [step_ascii _ _ (ascii (count + 1) (by omega))]
    · rfl

theorem tracks_complete (tracks : Tracks state b3 b2 b1) :
    (b3.toNat < 0xF0 ∧ b2.toNat < 0xE0 ∧ b1.toNat < 0xC0) ↔ state = .complete := by
  cases state with
  | complete =>
    obtain ⟨first, next, last⟩ := tracks
    exact ⟨fun _ => rfl, fun _ => ⟨last, next, first⟩⟩
  | lead a =>
    obtain ⟨rfl, lead, _⟩ := tracks
    simp only [reduceCtorEq, iff_false]
    omega
  | need1 =>
    obtain ⟨_, _, due⟩ := tracks
    simp only [reduceCtorEq, iff_false]
    omega
  | need2 =>
    obtain ⟨_, due⟩ := tracks
    simp only [reduceCtorEq, iff_false]
    omega

end Stream

/-- Lane `k` of the register that lies `d` bytes before `cur`. -/
def behind {w : Nat} (prev cur : Lanes w) (d k : Nat) : UInt8 :=
  if k < d then lane prev (k + w - d) else lane cur (k - d)

structure Faithful {w : Nat} (kernel : Kernel w) : Prop where
  wide : 3 ≤ w
  ascii : ∀ cur, kernel.ascii cur = true ↔ ∀ k, cur k < 0x80
  zero : ∀ v, kernel.zero v = true ↔ ∀ k, v k = 0
  blockErr : ∀ cur prev k, kernel.blockErr cur prev k =
    errorBits (behind prev cur 3 k) (behind prev cur 2 k) (behind prev cur 1 k) (cur k)

structure Invariant {w : Nat} (byte : Nat → UInt8) (r : Registers w) (i : Nat) : Prop where
  prev : ∀ k : Fin w, r.prevInput k = back byte i (w - k)
  err : (∀ k, r.err k = 0) ↔ (stateAt byte i).isSome = true
  incomplete : ∀ state, stateAt byte i = some state →
    ((∀ k, r.prevIncomplete k = 0) ↔ state = .complete)

theorem start_invariant (w : Nat) (byte : Nat → UInt8) : Invariant byte (Registers.start w) 0 := by
  refine ⟨?_, ?_, ?_⟩
  · intro k
    have positive : ¬ w ≤ k.val := by omega
    simp [Registers.start, splat, back, positive, Nat.sub_eq_zero_iff_le]
  · simp [Registers.start, splat, stateAt]
  · intro state reached
    cases reached
    simp [Registers.start, splat]

theorem subs_zero (a b : UInt8) : (if b ≤ a then a - b else 0) = 0 ↔ a.toNat ≤ b.toNat := by
  by_cases above : b ≤ a
  · rw [if_pos above, ← UInt8.toNat_inj, UInt8.toNat_sub_of_le _ _ above, UInt8.toNat_zero]
    omega
  · have order := UInt8.le_iff_toNat_le.not.mp above
    simp only [above, ↓reduceIte, true_iff]
    omega

variable {w : Nat}

theorem incomplete_zero (wide : 3 ≤ w) :
    (∀ k, subs cur (incMax w) k = 0) ↔
      (lane cur (w - 3)).toNat < 0xF0 ∧ (lane cur (w - 2)).toNat < 0xE0 ∧
        (lane cur (w - 1)).toNat < 0xC0 := by
  have capped : ∀ k : Fin w, subs cur (incMax w) k = 0 ↔ (cur k).toNat ≤ (incMax w k).toNat :=
    fun k => subs_zero _ _
  have third : (incMax w ⟨w - 3, by omega⟩).toNat = 0xEF := by simp [incMax]
  have next : (incMax w ⟨w - 2, by omega⟩).toNat = 0xDF := by
    rw [incMax, if_neg (by simp only; omega), if_pos rfl]
    rfl
  have last : (incMax w ⟨w - 1, by omega⟩).toNat = 0xBF := by
    rw [incMax, if_neg (by simp only; omega), if_neg (by simp only; omega), if_pos rfl]
    rfl
  simp only [capped]
  rw [lane_of_lt _ _ (by omega), lane_of_lt _ _ (by omega),
    lane_of_lt _ _ (by omega)]
  constructor
  · intro all
    have a := all ⟨w - 3, by omega⟩
    have b := all ⟨w - 2, by omega⟩
    have c := all ⟨w - 1, by omega⟩
    omega
  · rintro ⟨a, b, c⟩ ⟨k, inside⟩
    by_cases first : k = w - 3
    · subst first
      omega
    by_cases second : k = w - 2
    · subst second
      omega
    by_cases third : k = w - 1
    · subst third
      omega
    · have free : incMax w ⟨k, inside⟩ = 0xff := by simp [incMax, first, second, third]
      rw [free]
      exact Nat.le_of_lt_succ (cur ⟨k, inside⟩).toNat_lt

variable {i : Nat}

theorem behind_back (byte : Nat → UInt8) {prev : Lanes w}
    (before : ∀ k : Fin w, prev k = back byte i (w - k)) (here : ∀ k : Fin w, cur k = byte (i + k))
    (small : d ≤ w) (inside : k < w) : behind prev cur d k = back byte (i + k) d := by
  unfold behind
  by_cases spill : k < d
  · have distance : w - (k + w - d) = d - k := by omega
    rw [if_pos spill, lane_of_lt _ _ (by omega), before, distance]
    by_cases reached : d ≤ i + k
    · have position : i - (d - k) = i + k - d := by omega
      rw [back, back, if_pos (by omega), if_pos reached, position]
    · rw [back, back, if_neg (by omega), if_neg reached]
  · have position : i + (k - d) = i + k - d := by omega
    rw [if_neg spill, lane_of_lt _ _ (by omega), here, back, if_pos (by omega), position]

theorem absorb_invariant (faithful : Faithful kernel) (byte : Nat → UInt8)
    (invariant : Invariant byte r i) (here : ∀ k : Fin w, cur k = byte (i + k)) :
    Invariant byte (absorb kernel r cur) (i + w) := by
  have wide := faithful.wide
  have prev : ∀ k : Fin w, cur k = back byte (i + w) (w - k) := by
    intro k
    have position : i + w - (w - k.val) = i + k := by omega
    rw [here k, back, if_pos (by omega), position]
  rw [absorb]
  by_cases ascii : kernel.ascii cur = true
  · rw [if_pos ascii]
    -- Skipping the lookups is sound: only a sequence left open can go wrong here.
    have small : ∀ k < w - 1 + 1, (byte (i + k)).toNat < 0x80 := by
      intro k inside
      have below := (faithful.ascii cur).mp ascii ⟨k, by omega⟩
      rw [here] at below
      exact UInt8.lt_iff_toNat_lt.mp below
    have reached := ascii_run _ small
    rw [Nat.sub_add_cancel (by omega : 1 ≤ w)] at reached
    refine ⟨prev, ?_, ?_⟩
    · simp only [Simd.or, UInt8.or_eq_zero_iff, forall_and, invariant.err, reached]
      cases before : stateAt byte i with
      | none => simp
      | some state =>
        rw [invariant.incomplete state before]
        by_cases complete : state = .complete <;> simp [complete]
    · intro state after
      rw [reached] at after
      split at after
      · cases after
        simp [splat]
      · contradiction
  · rw [if_neg ascii]
    refine ⟨prev, ?_, ?_⟩
    · have bits : ∀ k : Fin w, kernel.blockErr cur r.prevInput k = errorAt byte (i + k) := by
        intro k
        have place : ∀ d, d ≤ 3 → behind r.prevInput cur d k = back byte (i + k) d := fun d bound =>
          behind_back _ invariant.prev here (by omega) k.isLt
        rw [faithful.blockErr, place 3 (by omega), place 2 (by omega), place 1 (by omega), here,
          errorAt]
      simp only [Simd.or, UInt8.or_eq_zero_iff, forall_and, invariant.err, bits]
      rw [stateAt_run _ i w, Fin.forall_iff]
    · intro state after
      have tracks := stateAt_tracks _ _ after
      rw [incomplete_zero wide, ← tracks_complete tracks, lane_of_lt _ _ (by omega),
        lane_of_lt _ _ (by omega),
        lane_of_lt _ _ (by omega), prev, prev, prev]
      have third : w - (w - 3) = 3 := by omega
      have next : w - (w - 2) = 2 := by omega
      have last : w - (w - 1) = 1 := by omega
      simp only [third, next, last]

theorem finish_complete (faithful : Faithful kernel) (byte : Nat → UInt8) (invariant : Invariant byte r i) :
    finish kernel r = true ↔ stateAt byte i = some .complete := by
  rw [finish, faithful.zero]
  simp only [Simd.or, UInt8.or_eq_zero_iff, forall_and, invariant.err]
  cases before : stateAt byte i with
  | none => simp
  | some state => simp [invariant.incomplete state before]

theorem padding_complete (byte : Nat → UInt8) (zeros : ∀ k, n ≤ k → byte k = 0) :
    stateAt byte (n + extra) = some .complete ↔ stateAt byte n = some .complete := by
  cases extra with
  | zero => rfl
  | succ extra =>
    rw [ascii_run _ fun k _ => by rw [zeros _ (by omega)]; decide]
    split <;> simp [*]

theorem validateBlocks_complete [NeZero w] {kernel : Kernel w} (faithful : Faithful kernel)
     {i : Nat} (bounded : i ≤ input.length)
    (invariant : Invariant (input.getD · 0) r i) :
    validateBlocks kernel input r i = true ↔
      stateAt (input.getD · 0) input.length = some .complete := by
  have zeros : ∀ k, input.length ≤ k → input.getD k 0 = 0 := by
    intro k past
    simp [past]
  rw [validateBlocks]
  by_cases full : i + w ≤ input.length
  · rw [if_pos full]
    have positive := Nat.pos_of_neZero w
    exact validateBlocks_complete faithful full (absorb_invariant faithful _ invariant fun k => rfl)
  · rw [if_neg full]
    by_cases tail : i < input.length
    · rw [if_pos tail]
      have padded : ∀ k : Fin w, load w (input.drop i ++ List.replicate (w - (input.length - i)) 0) 0 k =
        input.getD (i + k) 0 := by
        intro k
        simp only [load, Nat.zero_add, getD_eq_getElem?_getD]
        by_cases inside : i + k.val < input.length
        · rw [getElem?_append_left (by simp; omega), getElem?_drop]
        rw [getElem?_append_right (by simp; omega), getElem?_eq_none (by omega : input.length ≤ i + k)]
        cases found : (List.replicate (w - (input.length - i)) (0 : UInt8))[k.val - (input.drop i).length]? with
        | none => rfl
        | some value =>
          have zero := eq_of_mem_replicate (mem_of_getElem? found)
          simp [zero]
      rw [finish_complete faithful _ (absorb_invariant faithful _ invariant padded)]
      have reach : i + w = input.length + (i + w - input.length) := by omega
      rw [reach, padding_complete _ zeros]
    · have done : i = input.length := by omega
      rw [if_neg tail, finish_complete faithful _ invariant, done]
termination_by input.length - i

theorem stateAt_take {input : Bytes} (bounded : p ≤ input.length) :
    run .complete (input.take p) = stateAt (input.getD · 0) p := by
  induction p with
  | zero => rfl
  | succ p ih =>
    rw [take_succ_eq_append_getElem (by omega), run_append, ih (by omega), stateAt]
    congr 1
    funext state
    simp [run, (by omega : p < input.length)]

theorem validateBlocks_valid [NeZero w] {kernel : Kernel w} (faithful : Faithful kernel) :
    validateBlocks kernel input (.start w) 0 = true ↔ input.toByteArray.IsValidUTF8 := by
  rw [validateBlocks_complete faithful (by omega) (start_invariant w _),
    ← stateAt_take (by omega), take_length, run_valid]

/-! Both kernels compute the error bits lane by lane. -/

theorem shift_nibble (b : UInt8) : (b >>> 4).toNat = b.toNat / 16 := by
  simp [Nat.shiftRight_eq_div_pow]

theorem mask_nibble (b : UInt8) : (b &&& 0x0f).toNat = b.toNat % 16 := by
  exact Nat.and_two_pow_sub_one_eq_mod b.toNat 4

namespace Avx2

theorem shuffle_table
    (small : (index k).toNat < 16) : shuffle (table entries) index k = entries.getD (index k).toNat 0 := by
  have low : ¬ index k ≥ 0x80 := by
    change ¬ 0x80 ≤ (index k).toNat
    omega
  have position : (16 * (k.val / 16) + (index k).toNat % 16) % 16 = (index k).toNat := by omega
  rw [shuffle, if_neg low, table, lane_of_lt _ _ (by omega), broadcast128]
  simp only [position, lane_load 0 small, Nat.zero_add]

theorem highNib_toNat (v : Lanes 32) (k : Fin 32) : (highNib v k).toNat = (v k).toNat / 16 := by
  rw [highNib, lowMask, high_nibble, shift_nibble]

theorem lookup_high (entries : Bytes) (v : Lanes 32) (k : Fin 32) :
    shuffle (table entries) (highNib v) k = entries.getD ((v k).toNat / 16) 0 := by
  have bound := (v k).toNat_lt
  rw [shuffle_table (by rw [highNib_toNat]; omega), highNib_toNat]

theorem lookup_low (entries : Bytes) (v : Lanes 32) (k : Fin 32) :
    shuffle (table entries) (Simd.and v lowMask) k = entries.getD ((v k).toNat % 16) 0 := by
  have value : (Simd.and v lowMask k).toNat = (v k).toNat % 16 := mask_nibble _
  rw [shuffle_table (by rw [value]; omega), value]

theorem blockErr_bits (cur prev : Lanes 32) (k : Fin 32) :
    blockErr cur prev k =
      errorBits (behind prev cur 3 k) (behind prev cur 2 k) (behind prev cur 1 k) (cur k) := by
  have tables : ∀ prev1 : Lanes 32, Simd.and
    (Simd.and (shuffle (table B1H) (highNib prev1)) (shuffle (table B1L) (Simd.and prev1 lowMask)))
    (shuffle (table B2H) (highNib cur)) k =
      special ((prev1 k).toNat / 16) ((prev1 k).toNat % 16) ((cur k).toNat / 16) := by
    intro prev1
    change _ &&& _ &&& _ = _
    rw [lookup_high, lookup_low, lookup_high, special]
  have shifted : ∀ d, 1 ≤ d → d ≤ 16 →
    alignr cur (permute2x128 prev cur 0x21) (16 - d) k = behind prev cur d k :=
    fun d low high => alignr_permute _ low high k
  have prev1 := shifted 1 (by omega) (by omega)
  have prev2 := shifted 2 (by omega) (by omega)
  have prev3 := shifted 3 (by omega) (by omega)
  change must _ _ ^^^ Simd.and _ _ k = _
  rw [tables, prev1, prev2, prev3, errorBits]

theorem kernel_faithful : Faithful kernel where
  wide := by decide
  ascii := fun cur => by
    change (movemask cur == 0) = true ↔ _
    rw [beq_iff_eq, movemask_zero]
  zero := fun v => by
    change testz v v = true ↔ _
    simp [testz]
  blockErr := fun cur prev k => blockErr_bits cur prev k

end Avx2

namespace Neon

theorem lookup_table
    (small : (index k).toNat < 16) : vqtbl1 (table entries) index k = entries.getD (index k).toNat 0 := by
  rw [vqtbl1, table, lane_load 0 small, Nat.zero_add]

theorem lookup_high (entries : Bytes) (v : Lanes 16) (k : Fin 16) :
    vqtbl1 (table entries) (vshr v 4) k = entries.getD ((v k).toNat / 16) 0 := by
  have bound := (v k).toNat_lt
  have value : (vshr v 4 k).toNat = (v k).toNat / 16 := shift_nibble _
  rw [lookup_table (by rw [value]; omega), value]

theorem lookup_low (entries : Bytes) (v : Lanes 16) (k : Fin 16) :
    vqtbl1 (table entries) (Simd.and v (splat 16 0x0f)) k = entries.getD ((v k).toNat % 16) 0 := by
  have value : (Simd.and v (splat 16 0x0f) k).toNat = (v k).toNat % 16 := mask_nibble _
  rw [lookup_table (by rw [value]; omega), value]

theorem vext_behind (prev : Lanes 16) (d : Nat) (k : Fin 16) (bound : d ≤ 16) :
    vext prev cur (16 - d) k = behind prev cur d k := by
  unfold vext behind
  by_cases spill : k.val < d
  · have position : k.val + (16 - d) = k + 16 - d := by omega
    rw [if_pos (by omega), if_pos spill, position]
  · have position : k.val + (16 - d) - 16 = k - d := by omega
    rw [if_neg (by omega), if_neg spill, position]

theorem blockErr_bits (cur prev : Lanes 16) (k : Fin 16) :
    blockErr cur prev k =
      errorBits (behind prev cur 3 k) (behind prev cur 2 k) (behind prev cur 1 k) (cur k) := by
  have tables : ∀ prev1 : Lanes 16, Simd.and (Simd.and (vqtbl1 (table B1H) (vshr prev1 4))
      (vqtbl1 (table B1L) (Simd.and prev1 (splat 16 0x0f)))) (vqtbl1 (table B2H) (vshr cur 4)) k =
      special ((prev1 k).toNat / 16) ((prev1 k).toNat % 16) ((cur k).toNat / 16) := by
    intro prev1
    change _ &&& _ &&& _ = _
    rw [lookup_high, lookup_low, lookup_high, special]
  have prev1 : vext prev cur 15 k = _ := vext_behind _ 1 k (by omega)
  have prev2 : vext prev cur 14 k = _ := vext_behind _ 2 k (by omega)
  have prev3 : vext prev cur 13 k = _ := vext_behind _ 3 k (by omega)
  change must _ _ ^^^ Simd.and _ _ k = _
  rw [tables, prev1, prev2, prev3, errorBits]

theorem kernel_faithful : Faithful kernel where
  wide := by decide
  ascii := fun cur => by
    simp only [kernel, decide_eq_true_eq]
    exact vmaxv_lt _ (by decide)
  zero := fun v => by
    simp only [kernel, beq_iff_eq]
    exact vmaxv_zero v
  blockErr := fun cur prev k => blockErr_bits cur prev k

end Neon

theorem avx2_exact (input : Bytes) :
    validateUtf8Avx2 input = true ↔ input.toByteArray.IsValidUTF8 :=
  validateBlocks_valid Avx2.kernel_faithful

theorem neon_exact (input : Bytes) :
    validateUtf8Neon input = true ↔ input.toByteArray.IsValidUTF8 :=
  validateBlocks_valid Neon.kernel_faithful

theorem scalar_exact (input : Bytes) :
    validateUtf8Scalar input = true ↔ input.toByteArray.IsValidUTF8 :=
  ByteArray.validateUTF8_eq_true_iff

theorem ascii_valid (input : Bytes) (ascii : isAscii input = true) :
    input.toByteArray.IsValidUTF8 := by
  rw [← run_valid]
  induction input with
  | nil => rfl
  | cons b rest ih =>
    rw [isAscii, all_cons, Bool.and_eq_true, decide_eq_true_eq] at ascii
    have small : b.toNat < 0x80 := UInt8.lt_iff_toNat_lt.mp ascii.1
    rw [run, step_ascii _ b small, if_pos rfl, Option.bind_some]
    exact ih ascii.2

theorem selected_exact (target : Target) (input : Bytes) :
    validateUtf8 target input = true ↔ input.toByteArray.IsValidUTF8 := by
  unfold validateUtf8
  by_cases empty : input.isEmpty = true
  · rw [if_pos empty]
    rw [List.isEmpty_iff] at empty
    subst empty
    simp only [true_iff]
    exact ascii_valid [] rfl
  · rw [if_neg empty]
    cases target with
    | aarch64 => exact scalar_exact input
    | other => exact scalar_exact input
    | x86_64 avx2 =>
      dsimp only
      split
      · exact scalar_exact input
      split
      · rename_i shortAscii
        rw [Bool.and_eq_true] at shortAscii
        simp only [true_iff]
        exact ascii_valid _ shortAscii.2
      · cases avx2
        · exact scalar_exact input
        · exact avx2_exact input

/-- Whatever the target and whichever lane it selects, the validator accepts
exactly the well-formed UTF-8 strings; so do both vector lanes on their own. -/
theorem validate_exact (target : Target) (input : Bytes) :
    (validateUtf8 target input = true ↔ input.toByteArray.IsValidUTF8) ∧
      (validateUtf8Avx2 input = true ↔ input.toByteArray.IsValidUTF8) ∧
      (validateUtf8Neon input = true ↔ input.toByteArray.IsValidUTF8) :=
  ⟨selected_exact target input, avx2_exact input, neon_exact input⟩

end Align.Utf8Validate
