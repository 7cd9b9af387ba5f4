import Align.Simd

/-! Stage 1 of the record decoder: the positions of the structural bytes outside
string literals. The scalar loop keeps two bits of state; the AVX2 and NEON
loops process 64 bytes at a time and carry those two bits between blocks as
masks. Both block loops emit exactly the scalar loop's positions. -/
namespace Align.JsonIndex
open BitMasks Simd List

abbrev Bytes := List UInt8

/-- The bytes `{ } [ ] :`. -/
def isOp (b : UInt8) : Bool := b == 0x7B || b == 0x7D || b == 0x5B || b == 0x5D || b == 0x3A

def quote : UInt8 := 0x22

def backslash : UInt8 := 0x5C

/-- One pass over the remaining bytes from offset `i`, with the two flags the
loop keeps. It is also the tail loop of the block indexers. -/
def scanFrom : Bool → Bool → Nat → Bytes → List UInt32
  | _, _, _, [] => []
  | inString, esc, i, b :: rest =>
      let esc' := b == backslash && !esc
      if b == quote && !esc then scanFrom (!inString) esc' (i + 1) rest
      else if !inString && isOp b then UInt32.ofNat i :: scanFrom inString esc' (i + 1) rest
      else scanFrom inString esc' (i + 1) rest

def jsonDecodeIndexScalar (src : Bytes) : List UInt32 := scanFrom false false 0 src

def EVEN : BitVec 64 := 0x5555555555555555

/-- The characters preceded by an odd run of backslashes, and the pending escape
carried out of the block. -/
def findEscaped (backslashes prevEscaped : BitVec 64) : BitVec 64 × BitVec 64 :=
  let pe := prevEscaped
  let backslashes := backslashes &&& ~~~pe
  let followsEscape := (backslashes <<< 1) ||| pe
  let oddStarts := backslashes &&& ~~~EVEN &&& ~~~followsEscape
  -- `overflowing_add`: the wrapped sum and the carry out of the top bit.
  let seqEven := oddStarts + backslashes
  let carry := BitVec.carry 64 oddStarts backslashes false
  let invert := seqEven <<< 1
  ((EVEN ^^^ invert) &&& followsEscape, if carry then 1 else 0)

/-- Carry-less multiplication by all ones (`_mm_clmulepi64_si128`), low half. -/
def prefixXor (bitmask : BitVec 64) : BitVec 64 :=
  (clmul bitmask (BitVec.allOnes 64)).setWidth 64

def prefixXorPortable (x : BitVec 64) : BitVec 64 :=
  let x := x ^^^ (x <<< 1)
  let x := x ^^^ (x <<< 2)
  let x := x ^^^ (x <<< 4)
  let x := x ^^^ (x <<< 8)
  let x := x ^^^ (x <<< 16)
  x ^^^ (x <<< 32)

structure Masks where
  quote : BitVec 64
  backslash : BitVec 64
  op : BitVec 64

/-- The loop both block indexers share: `masks` classifies the 64 bytes from an
offset, `prefixes` is the running exclusive or. -/
def blockIndex (masks : Bytes → Nat → Masks) (prefixes : BitVec 64 → BitVec 64) (src : Bytes)
    (stringCarry escapeCarry : BitVec 64) (i : Nat) : List UInt32 :=
  if i + 64 ≤ src.length then
    let block := masks src i
    let (escaped, escapeCarry) := findEscaped block.backslash escapeCarry
    let realQuote := block.quote &&& ~~~escaped
    let inString := prefixes realQuote ^^^ stringCarry
    let stringCarry := inString.sshiftRight 63
    let bits := block.op &&& ~~~inString
    (drain 64 bits).map (fun offset => UInt32.ofNat i + UInt32.ofNat offset) ++
      blockIndex masks prefixes src stringCarry escapeCarry (i + 64)
  else scanFrom (stringCarry &&& 1 == 1) (escapeCarry &&& 1 == 1) i (src.drop i)
termination_by src.length - i

namespace Avx2

def eqm (v : Lanes 32) (c : UInt8) : BitVec 32 := movemask (cmpeq v (splat 32 c))

def opBits (v : Lanes 32) : BitVec 32 :=
  eqm v 0x7B ||| eqm v 0x7D ||| eqm v 0x5B ||| eqm v 0x5D ||| eqm v 0x3A

def join (lo hi : BitVec 32) : BitVec 64 := lo.setWidth 64 ||| (hi.setWidth 64 <<< 32)

def masks (src : Bytes) (i : Nat) : Masks :=
  let lo := load 32 src i
  let hi := load 32 src (i + 32)
  { quote := join (eqm lo JsonIndex.quote) (eqm hi JsonIndex.quote)
    backslash := join (eqm lo JsonIndex.backslash) (eqm hi JsonIndex.backslash)
    op := join (opBits lo) (opBits hi) }

end Avx2

namespace Neon

def WEIGHTS : Lanes 16 := fun k => UInt8.ofNat (2 ^ (k.val % 8))

def movemask16 (cmp : Lanes 16) : BitVec 32 :=
  let masked := Simd.and cmp WEIGHTS
  (vaddv (vgetLow masked)).toBitVec.setWidth 32 |||
    ((vaddv (vgetHigh masked)).toBitVec.setWidth 32 <<< 8)

def eqm (v : Lanes 16) (c : UInt8) : BitVec 32 := movemask16 (cmpeq v (splat 16 c))

def opBits (v : Lanes 16) : BitVec 32 :=
  movemask16
    (Simd.or
      (Simd.or (Simd.or (cmpeq v (splat 16 0x7B)) (cmpeq v (splat 16 0x7D)))
        (Simd.or (cmpeq v (splat 16 0x5B)) (cmpeq v (splat 16 0x5D))))
      (cmpeq v (splat 16 0x3A)))

def join (a b c d : BitVec 32) : BitVec 64 :=
  a.setWidth 64 ||| (b.setWidth 64 <<< 16) ||| (c.setWidth 64 <<< 32) ||| (d.setWidth 64 <<< 48)

def masks (src : Bytes) (i : Nat) : Masks :=
  let v0 := load 16 src i
  let v1 := load 16 src (i + 16)
  let v2 := load 16 src (i + 32)
  let v3 := load 16 src (i + 48)
  { quote := join (eqm v0 JsonIndex.quote) (eqm v1 JsonIndex.quote) (eqm v2 JsonIndex.quote)
      (eqm v3 JsonIndex.quote)
    backslash := join (eqm v0 JsonIndex.backslash) (eqm v1 JsonIndex.backslash)
      (eqm v2 JsonIndex.backslash) (eqm v3 JsonIndex.backslash)
    op := join (opBits v0) (opBits v1) (opBits v2) (opBits v3) }

end Neon

def jsonDecodeIndexAvx2 (src : Bytes) : List UInt32 := blockIndex Avx2.masks prefixXor src 0 0 0

def jsonDecodeIndexNeon (src : Bytes) : List UInt32 :=
  blockIndex Neon.masks prefixXorPortable src 0 0 0

/-! What the scalar loop knows before byte `k`. -/

def byteAt (src : Bytes) (i k : Nat) : UInt8 := src.getD (i + k) 0

/-- Byte `k` is escaped, given whether byte 0 is. -/
def escAt (byte : Nat → UInt8) (esc : Bool) : Nat → Bool
  | 0 => esc
  | k + 1 => byte k == backslash && !escAt byte esc k

/-- Byte `k` follows an odd number of delimiting quotes. -/
def inStringAt (byte : Nat → UInt8) (inString esc : Bool) (k : Nat) : Bool :=
  inString ^^ parity (fun j => byte j == quote && !escAt byte esc j) k

/-- The scalar loop emits byte `k`. A structural byte is no quote, so the string
flag before it and after it agree. -/
def emits (byte : Nat → UInt8) (inString esc : Bool) (k : Nat) : Bool :=
  isOp (byte k) && !inStringAt byte inString esc (k + 1)

theorem op_not_quote (op : isOp b = true) : (b == quote) = false := by
  rcases Bool.eq_false_or_eq_true (b == quote) with same | different
  · rw [beq_iff_eq] at same
    subst same
    contradiction
  · exact different

theorem scanFrom_split (esc : Bool) (i count : Nat) (inside : i + count ≤ src.length) :
    scanFrom inString esc i (src.drop i) =
      ((List.range count).filter (emits (byteAt src i) inString esc)).map
          (fun k => UInt32.ofNat (i + k)) ++
        scanFrom (inStringAt (byteAt src i) inString esc count) (escAt (byteAt src i) esc count)
          (i + count) (src.drop (i + count)) := by
  induction count with
  | zero => simp [inStringAt, parity, escAt]
  | succ count ih =>
    have here : i + count < src.length := by omega
    have current : src.get ⟨i + count, here⟩ = byteAt src i count := by
      simp [byteAt, here]
    rw [ih (by omega), drop_eq_getElem_cons here, range_succ, filter_append,
      map_append, append_assoc]
    change _ ++ scanFrom _ _ _ (src.get ⟨i + count, here⟩ :: _) = _
    rw [current, scanFrom]
    congr 1
    generalize byteAt src i = byte
    simp only [emits, inStringAt, parity, escAt, filter_cons, filter_nil, Nat.add_assoc]
    by_cases op : isOp (byte count) = true
    · simp only [op_not_quote op, op, Bool.false_and, Bool.xor_false, Bool.and_true, Bool.true_and]
      cases inString ^^ parity (fun j => byte j == quote && !escAt byte esc j) count <;> simp
    by_cases delimiter : (byte count == quote && !escAt byte esc count) = true
    · simp [op, delimiter]
    · simp [op, delimiter]

theorem even_bit (inside : k < 64) : EVEN.getLsbD k = decide (k % 2 = 0) := by
  have all : ∀ k : Fin 64, EVEN.getLsbD k.val = decide (k.val % 2 = 0) := by decide
  exact all ⟨k, inside⟩

theorem odd_not_even (k : Nat) : decide (k % 2 = 1) = !decide (k % 2 = 0) := by
  rw [← decide_not, decide_eq_decide]
  omega

/-- A carry as the code keeps it: the bit in position 0 and nothing else. -/
def carried (flag : Bool) : BitVec 64 := if flag then 1 else 0

theorem carried_bit (flag : Bool) (k : Nat) : (carried flag).getLsbD k = (flag && decide (k = 0)) := by
  cases flag
  · exact BitVec.getLsbD_zero
  · change (1#64).getLsbD k = _
    simp

section EscapedRuns
variable (byte : Nat → UInt8) (esc : Bool)

/-- The backslashes that can start or continue a run. -/
def live (k : Nat) : Bool := byte k == backslash && !(esc && decide (k = 0))

/-- Positions just behind a live backslash, or behind the carried one. -/
def follows : Nat → Bool
  | 0 => esc
  | k + 1 => live byte esc k

def oddStart (k : Nat) : Bool := live byte esc k && decide (k % 2 = 1) && !follows byte esc k

/-- The carry of the addition into position `k`: a run that began at an odd
position reaches up to it. -/
def runCarry : Nat → Bool
  | 0 => false
  | k + 1 => live byte esc k && (oddStart byte esc k || runCarry k)

theorem follows_succ (k : Nat) : follows byte esc (k + 1) = live byte esc k := rfl

theorem runCarry_succ (k : Nat) :
    runCarry byte esc (k + 1) = (live byte esc k && (oddStart byte esc k || runCarry byte esc k)) := rfl

theorem runCarry_follows (k : Nat) (carry : runCarry byte esc (k + 1) = true) :
    follows byte esc (k + 1) = true := by
  rw [runCarry, Bool.and_eq_true] at carry
  exact carry.1

/-- Behind a live backslash, a byte is escaped when the parity of the run's
start differs from its own. -/
theorem escAt_runs (k : Nat) :
    escAt byte esc (k + 1) =
      (follows byte esc (k + 1) && (runCarry byte esc (k + 1) ^^ decide ((k + 1) % 2 = 1))) := by
  induction k with
  | zero => cases esc <;> simp [escAt, follows, runCarry, oddStart, live]
  | succ k ih =>
    have plain : live byte esc (k + 1) = (byte (k + 1) == backslash) := by simp [live]
    have carry := runCarry_follows byte esc k
    rw [escAt, ih, runCarry_succ _ _ (k + 1), follows_succ _ _ (k + 1), oddStart, plain]
    have flip : decide ((k + 1 + 1) % 2 = 1) = !decide ((k + 1) % 2 = 1) := by
      rw [← decide_not, decide_eq_decide]
      omega
    rw [flip]
    generalize decide ((k + 1) % 2 = 1) = odd
    generalize runCarry byte esc (k + 1) = c at carry
    generalize follows byte esc (k + 1) = f at carry
    cases byte (k + 1) == backslash <;> cases f <;> cases c <;> cases odd <;> simp_all

/-- The sum that `findEscaped` forms, read at the position before `k + 1`: inside
a run its bit is the complement of the carry. -/
theorem runSum (inRun : live byte esc k = true) :
    (oddStart byte esc k ^^ (live byte esc k ^^ runCarry byte esc k)) = !runCarry byte esc (k + 1) := by
  have exclusive : runCarry byte esc k = true → oddStart byte esc k = false := by
    intro carry
    cases k with
    | zero => contradiction
    | succ k => simp [oddStart, runCarry_follows _ _ k carry]
  rw [runCarry_succ, inRun]
  cases c : runCarry byte esc k
  · cases oddStart byte esc k <;> rfl
  · simp [exclusive c]

end EscapedRuns

section BlockStep
variable (byte : Nat → UInt8) (esc : Bool)

theorem findEscaped_correct (reads : ∀ k < 64, mask.getLsbD k = (byte k == backslash)) :
    (∀ k < 64, (findEscaped mask (carried esc)).1.getLsbD k = escAt byte esc k) ∧
      (findEscaped mask (carried esc)).2 = carried (escAt byte esc 64) := by
  simp only [findEscaped]
  generalize liveEq : mask &&& ~~~carried esc = liveMask
  have liveBits : ∀ k < 64, liveMask.getLsbD k = live byte esc k := by
    intro k inside
    rw [← liveEq, BitVec.getLsbD_and, BitVec.getLsbD_not, carried_bit, reads k inside, live,
      decide_eq_true inside, Bool.true_and]
  generalize followEq : liveMask <<< 1 ||| carried esc = followMask
  have followBits : ∀ k < 64, followMask.getLsbD k = follows byte esc k := by
    intro k inside
    rw [← followEq, BitVec.getLsbD_or, BitVec.getLsbD_shiftLeft, carried_bit]
    cases k with
    | zero => simp [follows]
    | succ k => simp [follows, liveBits k (by omega), inside]
  generalize startEq : liveMask &&& ~~~EVEN &&& ~~~followMask = startMask
  have startBits : ∀ k < 64, startMask.getLsbD k = oddStart byte esc k := by
    intro k inside
    rw [← startEq, BitVec.getLsbD_and, BitVec.getLsbD_and, BitVec.getLsbD_not, BitVec.getLsbD_not,
      liveBits k inside, followBits k inside, even_bit inside, oddStart, decide_eq_true inside,
      odd_not_even]
    simp
  have carryBits : ∀ k ≤ 64, BitVec.carry k startMask liveMask false = runCarry byte esc k := by
    intro k inside
    induction k with
    | zero => simp [runCarry]
    | succ k ih =>
      rw [BitVec.carry_succ, ih (by omega), startBits k inside, liveBits k inside, runCarry_succ,
        oddStart]
      cases live byte esc k <;> cases runCarry byte esc k <;> simp [Bool.atLeastTwo]
  constructor
  · intro k inside
    rw [BitVec.getLsbD_and, BitVec.getLsbD_xor, BitVec.getLsbD_shiftLeft, followBits k inside,
      even_bit inside]
    cases k with
    | zero => simp [follows, escAt]
    | succ k =>
      rw [escAt_runs, Nat.add_sub_cancel, BitVec.getLsbD_add (by omega), startBits k (by omega),
        liveBits k (by omega), carryBits k (by omega)]
      by_cases inRun : live byte esc k = true
      · rw [runSum _ _ inRun, follows_succ, inRun]
        rw [odd_not_even]
        cases runCarry byte esc (k + 1) <;> cases decide ((k + 1) % 2 = 0) <;> simp [inside]
      · simp [follows_succ, inRun]
  · rw [carryBits 64 (by omega), escAt_runs, carried]
    have known := runCarry_follows byte esc 63
    cases carry : runCarry byte esc (63 + 1) with
    | false => simp
    | true => simp [known carry]

end BlockStep

/-! Running exclusive or, both ways of computing it. -/

def IsPrefix (prefixes : BitVec 64 → BitVec 64) : Prop :=
  ∀ x, ∀ k < 64, (prefixes x).getLsbD k = parity x.getLsbD (k + 1)

theorem prefixXor_prefix : IsPrefix prefixXor := by
  intro x k inside
  rw [prefixXor, BitVec.getLsbD_setWidth, clmul_ones x inside, decide_eq_true inside, Bool.true_and]

theorem prefixXorPortable_prefix : IsPrefix prefixXorPortable := by
  intro x k inside
  have by2 := ladder_double (ladder_start x)
  have by4 := ladder_double by2
  have by8 := ladder_double by4
  have by16 := ladder_double by8
  have by32 := ladder_double by16
  have by64 := ladder_double by32
  exact ladder_full x _ by64 (by omega) inside

structure Classifies (masks : Masks) (byte : Nat → UInt8) : Prop where
  quotes : ∀ k < 64, masks.quote.getLsbD k = (byte k == quote)
  backslashes : ∀ k < 64, masks.backslash.getLsbD k = (byte k == backslash)
  ops : ∀ k < 64, masks.op.getLsbD k = isOp (byte k)

/-- The string flag as the code carries it: all ones or zero. -/
def spread (flag : Bool) : BitVec 64 := if flag then BitVec.allOnes 64 else 0

theorem spread_bit (inside : k < 64) : (spread flag).getLsbD k = flag := by
  cases flag
  · exact BitVec.getLsbD_zero
  · change (BitVec.allOnes 64).getLsbD k = true
    rw [BitVec.getLsbD_allOnes, decide_eq_true inside]

theorem inString_bits (prefixes : BitVec 64 → BitVec 64) (exact' : IsPrefix prefixes)
    (byte : Nat → UInt8) (reads : Classifies masks byte) (inString esc : Bool) (k : Nat) (inside : k < 64) :
    (prefixes (masks.quote &&& ~~~(findEscaped masks.backslash (carried esc)).1) ^^^
      spread inString).getLsbD k = inStringAt byte inString esc (k + 1) := by
  obtain ⟨escaped, _⟩ := findEscaped_correct _ _ reads.backslashes
  rw [BitVec.getLsbD_xor, exact' _ k inside, spread_bit inside, inStringAt, Bool.xor_comm]
  congr 1
  apply parity_congr
  intro j below
  rw [BitVec.getLsbD_and, BitVec.getLsbD_not, reads.quotes j (by omega), escaped j (by omega),
    decide_eq_true (by omega : j < 64), Bool.true_and]

theorem spread_msb (mask : BitVec 64) (last : mask.getLsbD 63 = flag) :
    mask.sshiftRight 63 = spread flag := by
  apply BitVec.eq_of_getLsbD_eq
  intro k inside
  rw [BitVec.getLsbD_sshiftRight, spread_bit inside, ← last]
  have msb : mask.msb = mask.getLsbD 63 := BitVec.msb_eq_getLsbD_last mask
  by_cases first : k = 0
  · simp [first]
  · have past : ¬ 63 + k < 64 := by omega
    have within : ¬ 64 ≤ k := by omega
    simp only [within, past, ↓reduceIte, decide_false, Bool.not_false, Bool.true_and, msb]

theorem emitted_positions (bits : BitVec 64) (emit : Nat → Bool) (i : Nat)
    (same : ∀ k < 64, bits.getLsbD k = emit k) :
    (drain 64 bits).map (fun offset => UInt32.ofNat i + UInt32.ofNat offset) =
      ((List.range 64).filter emit).map (fun k => UInt32.ofNat (i + k)) := by
  have positionsEq : positions bits = (List.range 64).filter emit := by
    apply filter_congr
    intro k member
    exact same k (mem_range.mp member)
  rw [drain_positions, positionsEq]
  apply map_congr_left
  intro k _
  exact (UInt32.ofNat_add i k).symm

theorem carried_low (flag : Bool) : (carried flag &&& 1 == 1) = flag := by
  cases flag <;> decide

theorem spread_low (flag : Bool) : (spread flag &&& 1 == 1) = flag := by
  cases flag <;> decide

/-- From any carried state the block loop continues exactly as the scalar loop
would from the two flags it carries. -/
theorem blockIndex_scan (masks : Bytes → Nat → Masks) (prefixes : BitVec 64 → BitVec 64)
    (exact' : IsPrefix prefixes)
    (reads : ∀ i, Classifies (masks src i) (byteAt src i)) (inString esc : Bool) (i : Nat) :
    blockIndex masks prefixes src (spread inString) (carried esc) i =
      scanFrom inString esc i (src.drop i) := by
  by_cases more : i + 64 ≤ src.length
  · obtain ⟨_, escOut⟩ := findEscaped_correct _ esc (reads i).backslashes
    have inside := inString_bits _ exact' _ (reads i) inString esc
    rw [blockIndex, if_pos more, scanFrom_split _ i _ more]
    simp only [escOut, spread_msb _ (inside 63 (by omega))]
    rw [blockIndex_scan _ _ exact' reads]
    congr 1
    apply emitted_positions
    intro k below
    rw [BitVec.getLsbD_and, BitVec.getLsbD_not, inside k below, (reads i).ops k below, emits,
      decide_eq_true below, Bool.true_and]
  · rw [blockIndex, if_neg more, carried_low, spread_low]
termination_by src.length - i

namespace Avx2

theorem eqm_bit (v : Lanes 32) (c : UInt8) (k : Nat) (inside : k < 32) :
    (eqm v c).getLsbD k = (lane v k == c) := by
  rw [eqm, movemask_cmpeq, decide_eq_true inside, Bool.true_and]

theorem opBits_bit (v : Lanes 32) (k : Nat) (inside : k < 32) :
    (opBits v).getLsbD k = isOp (lane v k) := by
  simp only [opBits, isOp, BitVec.getLsbD_or, eqm_bit _ _ k inside]

theorem join_bit (lo hi : BitVec 32) (k : Nat) (inside : k < 64) :
    (join lo hi).getLsbD k = if k < 32 then lo.getLsbD k else hi.getLsbD (k - 32) := by
  simp only [join, BitVec.getLsbD_or, BitVec.getLsbD_shiftLeft, BitVec.getLsbD_setWidth]
  by_cases low : k < 32
  · simp [low, inside]
  · have high : k - 32 < 64 := by omega
    simp [low, inside, high, BitVec.getLsbD_of_ge lo k (by omega)]

theorem join_reads (src : Bytes) (i : Nat) (test : Lanes 32 → BitVec 32) (holds : UInt8 → Bool)
    (reads : ∀ v, ∀ k < 32, (test v).getLsbD k = holds (lane v k)) (k : Nat) (inside : k < 64) :
    (join (test (load 32 src i)) (test (load 32 src (i + 32)))).getLsbD k = holds (byteAt src i k) := by
  rw [join_bit _ _ k inside]
  by_cases low : k < 32
  · rw [if_pos low, reads _ k low, lane_load i low, byteAt]
  · have position : i + 32 + (k - 32) = i + k := by omega
    rw [if_neg low, reads _ (k - 32) (by omega), lane_load _ (by omega), position,
      byteAt]

theorem masks_classify (src : Bytes) (i : Nat) : Classifies (masks src i) (byteAt src i) where
  quotes := join_reads src i (eqm · JsonIndex.quote) (· == JsonIndex.quote) (fun v => eqm_bit v _)
  backslashes :=
    join_reads src i (eqm · JsonIndex.backslash) (· == JsonIndex.backslash) (fun v => eqm_bit v _)
  ops := join_reads src i opBits isOp opBits_bit

end Avx2

namespace Neon

theorem weights_sum (flag : Fin 8 → Bool) (k : Fin 8) :
    (vaddv fun i : Fin 8 => (bif flag i then (0xFF : UInt8) else 0) &&&
      UInt8.ofNat (2 ^ (i.val % 8))).toBitVec.getLsbD k = flag k := by
  -- one sum for each choice of flags, not one for each of its bits
  have table : ∀ a b c d e f g h : Bool,
    (vaddv fun i : Fin 8 => (bif ![a, b, c, d, e, f, g, h] i then (0xFF : UInt8) else 0) &&&
      UInt8.ofNat (2 ^ (i.val % 8))).toBitVec = BitVec.ofBoolListLE [a, b, c, d, e, f, g, h] := by
    decide +kernel
  have shape : flag = ![flag 0, flag 1, flag 2, flag 3, flag 4, flag 5, flag 6, flag 7] := by
    funext i
    fin_cases i <;> rfl
  rw [shape, table, BitVec.getLsbD_ofBoolListLE]
  fin_cases k <;> rfl

theorem movemask16_bit (holds : Fin 16 → Bool) (inside : k < 16) :
    (movemask16 fun i => bif holds i then 0xFF else 0).getLsbD k = holds ⟨k, inside⟩ := by
  simp only [movemask16, BitVec.getLsbD_or, BitVec.getLsbD_shiftLeft, BitVec.getLsbD_setWidth]
  by_cases low : k < 8
  · have sum := weights_sum (fun i => holds ⟨i, by omega⟩) ⟨k, low⟩
    have within : k < 32 := by omega
    simp only [low, within, decide_true, Bool.not_true, Bool.and_false, Bool.false_and, Bool.or_false,
      Bool.true_and]
    exact sum
  · have sum := weights_sum (fun i => holds ⟨8 + i, by omega⟩) ⟨k - 8, by omega⟩
    have within : k < 32 := by omega
    have within' : k - 8 < 32 := by omega
    have outside : (vaddv (vgetLow (Simd.and (fun i => bif holds i then 0xFF else 0)
      WEIGHTS))).toBitVec.getLsbD k = false := BitVec.getLsbD_of_ge _ k (by omega)
    simp only [low, within, within', outside, decide_true, decide_false, Bool.not_false, Bool.and_false,
      Bool.false_or, Bool.true_and]
    have position : (⟨8 + (k - 8), by omega⟩ : Fin 16) = ⟨k, inside⟩ := by
      apply Fin.ext
      change 8 + (k - 8) = k
      omega
    rw [← position]
    exact sum

theorem eqm_bit (v : Lanes 16) (c : UInt8) (k : Nat) (inside : k < 16) :
    (eqm v c).getLsbD k = (lane v k == c) := by
  have bit := movemask16_bit (fun i => v i == c) inside
  rw [eqm, lane_of_lt v k inside, ← bit]
  rfl

theorem opBits_bit (v : Lanes 16) (k : Nat) (inside : k < 16) :
    (opBits v).getLsbD k = isOp (lane v k) := by
  have bit := movemask16_bit (fun i => isOp (v i)) inside
  have either : ∀ a b : Bool, ((bif a then (0xFF : UInt8) else 0) ||| bif b then 0xFF else 0) =
    bif a || b then 0xFF else 0 := by decide
  rw [opBits, lane_of_lt v k inside, ← bit]
  congr 2
  funext i
  simp only [Simd.or, cmpeq, splat, isOp, either, Bool.or_assoc]

theorem join_bit (a b c d : BitVec 32) (k : Nat) (inside : k < 64)
    (small : ∀ j, 16 ≤ j → a.getLsbD j = false ∧ b.getLsbD j = false ∧ c.getLsbD j = false) :
    (join a b c d).getLsbD k =
      if k < 16 then a.getLsbD k else if k < 32 then b.getLsbD (k - 16)
      else if k < 48 then c.getLsbD (k - 32) else d.getLsbD (k - 48) := by
  simp only [join, BitVec.getLsbD_or, BitVec.getLsbD_shiftLeft, BitVec.getLsbD_setWidth]
  by_cases first : k < 16
  · have b' : k < 32 := by omega
    have c' : k < 48 := by omega
    simp [first, inside, b', c']
  rw [(small k (by omega)).1]
  by_cases second : k < 32
  · have c' : k < 48 := by omega
    have within : k - 16 < 64 := by omega
    simp [first, second, inside, c', within]
  rw [(small (k - 16) (by omega)).2.1]
  by_cases third : k < 48
  · have within : k - 32 < 64 := by omega
    simp [first, second, third, inside, within]
  · have within : k - 48 < 64 := by omega
    rw [(small (k - 32) (by omega)).2.2]
    simp [first, second, third, inside, within]

theorem movemask16_small (cmp : Lanes 16) (j : Nat) (past : 16 ≤ j) :
    (movemask16 cmp).getLsbD j = false := by
  simp only [movemask16, BitVec.getLsbD_or, BitVec.getLsbD_shiftLeft, BitVec.getLsbD_setWidth]
  rw [BitVec.getLsbD_of_ge _ j (by omega), BitVec.getLsbD_of_ge _ (j - 8) (by omega)]
  simp

theorem join_reads (src : Bytes) (i : Nat) (test : Lanes 16 → BitVec 32) (holds : UInt8 → Bool)
    (reads : ∀ v, ∀ k < 16, (test v).getLsbD k = holds (lane v k))
    (small : ∀ v j, 16 ≤ j → (test v).getLsbD j = false) (k : Nat) (inside : k < 64) :
    (join (test (load 16 src i)) (test (load 16 src (i + 16))) (test (load 16 src (i + 32)))
      (test (load 16 src (i + 48)))).getLsbD k = holds (byteAt src i k) := by
  have part : ∀ base, base ≤ k → k < base + 16 →
    (test (load 16 src (i + base))).getLsbD (k - base) = holds (byteAt src i k) := by
    intro base low high
    have position : i + base + (k - base) = i + k := by omega
    rw [reads _ _ (by omega), lane_load _ (by omega), position, byteAt]
  rw [join_bit _ _ _ _ k inside fun j past => ⟨small _ j past, small _ j past, small _ j past⟩]
  split
  · exact part 0 (by omega) (by omega)
  split
  · exact part 16 (by omega) (by omega)
  · split
    · exact part 32 (by omega) (by omega)
    · exact part 48 (by omega) (by omega)

theorem masks_classify (src : Bytes) (i : Nat) : Classifies (masks src i) (byteAt src i) where
  quotes := join_reads src i (eqm · JsonIndex.quote) (· == JsonIndex.quote) (fun v => eqm_bit v _)
    (fun _ => movemask16_small _)
  backslashes :=
    join_reads src i (eqm · JsonIndex.backslash) (· == JsonIndex.backslash) (fun v => eqm_bit v _)
      (fun _ => movemask16_small _)
  ops := join_reads src i opBits isOp opBits_bit (fun _ => movemask16_small _)

end Neon

theorem avx2_scalar (src : Bytes) : jsonDecodeIndexAvx2 src = jsonDecodeIndexScalar src :=
  blockIndex_scan _ _ prefixXor_prefix (Avx2.masks_classify src) false false 0

theorem neon_scalar (src : Bytes) : jsonDecodeIndexNeon src = jsonDecodeIndexScalar src :=
  blockIndex_scan _ _ prefixXorPortable_prefix (Neon.masks_classify src)
    false false 0

/-- Both block indexers emit the scalar indexer's positions, on every input. -/
theorem block_indexers_agree (src : Bytes) :
    jsonDecodeIndexAvx2 src = jsonDecodeIndexScalar src ∧
      jsonDecodeIndexNeon src = jsonDecodeIndexScalar src :=
  ⟨avx2_scalar src, neon_scalar src⟩

end Align.JsonIndex
