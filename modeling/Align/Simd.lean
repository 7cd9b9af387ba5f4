import Align.BitMasks

/-! Byte-lane semantics of the vector instructions, as the instruction-set
manuals document them: AVX2 on 256-bit registers (several operations work on
the two 128-bit halves separately), NEON on 128-bit registers. A register is a
function from lanes to bytes, lane 0 being the lowest address. -/
namespace Align.Simd
open BitMasks

abbrev Lanes (n : Nat) := Fin n → UInt8

/-- What a program was built for, and whether AVX2 is detected at run time. -/
inductive Target where
  | x86 (avx2 : Bool)
  | aarch64
  | other
deriving DecidableEq, Repr

/-- Lane `k`, and zero outside the register. -/
def lane (v : Lanes n) (k : Nat) : UInt8 := if inside : k < n then v ⟨k, inside⟩ else 0

def splat (n : Nat) (c : UInt8) : Lanes n := fun _ => c

/-- An unaligned load of `n` bytes from offset `start`. -/
def load (n : Nat) (bytes : List UInt8) (start : Nat) : Lanes n := fun k => bytes.getD (start + k) 0

def cmpeq (a b : Lanes n) : Lanes n := fun k => bif a k == b k then 0xFF else 0

def and (a b : Lanes n) : Lanes n := fun k => a k &&& b k

def or (a b : Lanes n) : Lanes n := fun k => a k ||| b k

def xor (a b : Lanes n) : Lanes n := fun k => a k ^^^ b k

def subs (a b : Lanes n) : Lanes n := fun k => if b k ≤ a k then a k - b k else 0

@[simp]
theorem lane_of_lt (v : Lanes n) (k : Nat) (inside : k < n) : lane v k = v ⟨k, inside⟩ := by
  simp [lane, inside]

@[simp]
theorem lane_load (start : Nat) (inside : k < n) :
    lane (load n bytes start) k = bytes.getD (start + k) 0 := by
  simp [load, inside]

/-- `_mm256_movemask_epi8`: the top bit of each lane. -/
def movemask (v : Lanes n) : BitVec n := ofBits n fun k => decide (0x80 ≤ lane v k)

theorem movemask_cmpeq (v : Lanes n) (c : UInt8) (k : Nat) :
    (movemask (cmpeq v (splat n c))).getLsbD k = (decide (k < n) && lane v k == c) := by
  rw [movemask, ofBits_getLsbD]
  by_cases inside : k < n
  · simp only [inside, lane_of_lt, cmpeq, splat, decide_true, Bool.true_and]
    cases v ⟨k, inside⟩ == c <;> rfl
  · simp [inside]

theorem movemask_zero (v : Lanes n) : movemask v = 0 ↔ ∀ k, v k < 0x80 := by
  constructor
  · intro zero k
    have bit : (movemask v).getLsbD k.val = false := by
      rw [zero]
      exact BitVec.getLsbD_zero
    rw [movemask, ofBits_getLsbD, lane_of_lt v k k.isLt, decide_eq_true k.isLt, Bool.true_and,
      decide_eq_false_iff_not] at bit
    exact UInt8.not_le.mp bit
  · intro below
    apply BitVec.eq_of_getLsbD_eq
    intro k inside
    have small := UInt8.not_le.mpr (below ⟨k, inside⟩)
    rw [movemask, ofBits_getLsbD, lane_of_lt v k inside, decide_eq_false small, Bool.and_false]
    exact BitVec.getLsbD_zero.symm

/-- `_mm256_broadcastsi128_si256`. -/
def broadcast128 (v : Lanes 16) : Lanes 32 := fun k => lane v (k % 16)

/-- `_mm256_shuffle_epi8`: a table lookup inside each half; an index with its
top bit set gives zero. -/
def shuffle (table index : Lanes 32) : Lanes 32 := fun k =>
  if index k ≥ 0x80 then 0 else lane table (16 * (k / 16) + (index k).toNat % 16)

theorem shuffle_broadcast (table : Lanes 16) (index : Lanes 32) (small : (index k).toNat < 16) :
    shuffle (broadcast128 table) index k = lane table (index k).toNat := by
  have low : ¬ index k ≥ 0x80 := by
    rw [ge_iff_le, UInt8.le_iff_toNat_le]
    change ¬ 128 ≤ _
    omega
  rw [shuffle, if_neg low, Nat.mod_eq_of_lt small, lane_of_lt _ _ (by omega), broadcast128]
  congr 1
  simp only
  omega

/-- `_mm256_permute2x128_si256`: each half of the result is chosen by a nibble. -/
def permute2x128 (a b : Lanes 32) (imm : Nat) : Lanes 32 := fun k =>
  let control := if k.val < 16 then imm % 16 else imm / 16 % 16
  if control ≥ 8 then 0
  else match control % 4 with
    | 0 => lane a (k % 16)
    | 1 => lane a (16 + k % 16)
    | 2 => lane b (k % 16)
    | _ => lane b (16 + k % 16)

/-- `_mm256_alignr_epi8`: inside each half, `a` above `b` shifted right by bytes. -/
def alignr (a b : Lanes 32) (count : Nat) : Lanes 32 := fun k =>
  let base := 16 * (k.val / 16)
  let source := k % 16 + count
  if source < 16 then lane b (base + source)
  else if source < 32 then lane a (base + (source - 16))
  else 0

/-- `_mm256_srli_epi16`: a right shift of each little-endian 16-bit pair. -/
def srli16 (v : Lanes n) (count : Nat) : Lanes n := fun k =>
  let pair := 2 * (k.val / 2)
  let word := ((lane v pair).toNat + 256 * (lane v (pair + 1)).toNat) >>> count
  if k.val % 2 = 0 then UInt8.ofNat word else UInt8.ofNat (word >>> 8)

/-- The little-endian 16-bit word in lanes `2 * pair` and `2 * pair + 1`. -/
def word16 (v : Lanes n) (pair : Nat) : Nat :=
  (lane v (2 * pair)).toNat + 256 * (lane v (2 * pair + 1)).toNat

/-- The register whose 16-bit words are given, each cut to its width. -/
def ofWords (word : Nat → Nat) : Lanes n := fun k =>
  if k.val % 2 = 0 then UInt8.ofNat (word (k / 2)) else UInt8.ofNat (word (k / 2) / 256)

/-- `_mm256_mulhi_epu16`: the high half of each unsigned product. -/
def mulhi16 (a b : Lanes n) : Lanes n := ofWords fun pair => word16 a pair * word16 b pair / 65536

/-- `_mm256_mullo_epi16`: the low half of each product. -/
def mullo16 (a b : Lanes n) : Lanes n := ofWords fun pair => word16 a pair * word16 b pair % 65536

/-- `_mm256_set1_epi32`: one little-endian 32-bit word repeated. -/
def set1Epi32 (word : Nat) : Lanes n := fun k => UInt8.ofNat (word / 256 ^ (k.val % 4))

theorem lane_ofWords_even (word : Nat → Nat) (inside : 2 * pair < n) :
    lane (ofWords word : Lanes n) (2 * pair) = UInt8.ofNat (word pair) := by
  have half : 2 * pair / 2 = pair := by omega
  have even : 2 * pair % 2 = 0 := by omega
  rw [lane_of_lt _ _ inside, ofWords]
  simp only [half, even, ↓reduceIte]

theorem lane_ofWords_odd (word : Nat → Nat) (inside : 2 * pair + 1 < n) :
    lane (ofWords word : Lanes n) (2 * pair + 1) = UInt8.ofNat (word pair / 256) := by
  have half : (2 * pair + 1) / 2 = pair := by omega
  have odd : ¬ (2 * pair + 1) % 2 = 0 := by omega
  rw [lane_of_lt _ _ inside, ofWords]
  simp only [half, odd, ↓reduceIte]

theorem lane_set1Epi32 (inside : k < n) :
    lane (set1Epi32 word : Lanes n) k = UInt8.ofNat (word / 256 ^ (k % 4)) := by
  rw [lane_of_lt _ _ inside, set1Epi32]

theorem lane_and (a b : Lanes n) (k : Nat) : lane (and a b) k = lane a k &&& lane b k := by
  by_cases inside : k < n
  · simp [inside, and]
  · simp [lane, inside]

theorem lane_or (a b : Lanes n) (k : Nat) : lane (or a b) k = lane a k ||| lane b k := by
  by_cases inside : k < n
  · simp [inside, or]
  · simp [lane, inside]

/-- `_mm256_set_m128i`: a register from its two halves. -/
def setM128i (high low : Lanes 16) : Lanes 32 := fun k =>
  if k.val < 16 then lane low k else lane high (k - 16)

def add (a b : Lanes n) : Lanes n := fun k => a k + b k

def sub (a b : Lanes n) : Lanes n := fun k => a k - b k

/-- `_mm256_cmpgt_epi8`: a signed comparison of bytes. -/
def cmpgt (a b : Lanes n) : Lanes n := fun k =>
  bif (b k).toBitVec.slt (a k).toBitVec then 0xFF else 0

/-- `_mm256_unpacklo_epi8`: inside each half, the low eight bytes interleaved. -/
def unpacklo (a b : Lanes 32) : Lanes 32 := fun k =>
  let source := 16 * (k.val / 16) + k.val % 16 / 2
  if k.val % 2 = 0 then lane a source else lane b source

/-- `_mm256_unpackhi_epi8`: inside each half, the high eight bytes interleaved. -/
def unpackhi (a b : Lanes 32) : Lanes 32 := fun k =>
  let source := 16 * (k.val / 16) + 8 + k.val % 16 / 2
  if k.val % 2 = 0 then lane a source else lane b source

/-- The halves of the two unpacked registers, put back in order: the lanes of
both inputs interleaved over the whole width. -/
theorem unpack_permute (a b : Lanes 32) (k : Fin 32) :
    permute2x128 (unpacklo a b) (unpackhi a b) 0x20 k =
        (if k.val % 2 = 0 then lane a (k / 2) else lane b (k / 2)) ∧
      permute2x128 (unpacklo a b) (unpackhi a b) 0x31 k =
        if k.val % 2 = 0 then lane a (16 + k / 2) else lane b (16 + k / 2) := by
  have shifted : (16 + k.val % 16) % 2 = k.val % 2 := by omega
  by_cases lower : k.val < 16
  · have same : k.val % 16 / 2 = k / 2 := by omega
    simp [permute2x128, lower, lane_of_lt (unpacklo a b) (k % 16) (by omega),
      lane_of_lt (unpacklo a b) (16 + k % 16) (by omega), unpacklo, shifted, same]
  · have low : 8 + k.val % 16 / 2 = k / 2 := by omega
    have high : 24 + k.val % 16 / 2 = 16 + k / 2 := by omega
    simp [permute2x128, lower, lane_of_lt (unpackhi a b) (k % 16) (by omega),
      lane_of_lt (unpackhi a b) (16 + k % 16) (by omega), unpackhi, shifted, low, high]

/-- `_mm256_testz_si256`. -/
def testz (a b : Lanes n) : Bool := decide (∀ k, a k &&& b k = 0)

/-- The register holding the bytes just before `cur`: `count` of them come from
the end of `prev`. This is how a 256-bit register is shifted across its halves. -/
theorem alignr_permute (prev : Lanes 32) (low : 1 ≤ back) (high : back ≤ 16) (k : Fin 32) :
    alignr cur (permute2x128 prev cur 0x21) (16 - back) k =
      if k.val < back then lane prev (k + 32 - back) else lane cur (k - back) := by
  simp only [alignr]
  by_cases first : k.val < 16
  · have base : k.val / 16 = 0 := by omega
    have offset : k.val % 16 = k := by omega
    rw [base, offset]
    by_cases spill : k.val < back
    · have source : k.val + (16 - back) < 16 := by omega
      have position : 16 + (k.val + (16 - back)) % 16 = k + 32 - back := by omega
      rw [if_pos source, if_pos spill, lane_of_lt _ _ (by omega), permute2x128]
      simp only [Nat.mul_zero, Nat.zero_add, source, ↓reduceIte, position]
      rfl
    · have source : ¬ k.val + (16 - back) < 16 := by omega
      have inside : k.val + (16 - back) < 32 := by omega
      rw [if_neg source, if_pos inside, if_neg spill]
      congr 1
      omega
  · have base : k.val / 16 = 1 := by omega
    rw [base, if_neg (by omega : ¬ k.val < back)]
    by_cases spill : k.val % 16 < back
    · have source : k.val % 16 + (16 - back) < 16 := by omega
      have upper : ¬ 16 * 1 + (k.val % 16 + (16 - back)) < 16 := by omega
      have position : (16 * 1 + (k.val % 16 + (16 - back))) % 16 = k - back := by omega
      rw [if_pos source, lane_of_lt _ _ (by omega), permute2x128]
      simp only [upper, ↓reduceIte, position]
      rfl
    · have source : ¬ k.val % 16 + (16 - back) < 16 := by omega
      have inside : k.val % 16 + (16 - back) < 32 := by omega
      rw [if_neg source, if_pos inside]
      congr 1
      omega

theorem high_nibble (v : Lanes 32) (k : Fin 32) :
    and (srli16 v 4) (splat 32 0x0f) k = v k >>> 4 := by
  have bound := k.isLt
  have nibble : ∀ word byte : Nat, byte < 256 → word % 256 % 16 = byte / 16 →
    UInt8.ofNat word &&& (0x0f : UInt8) = UInt8.ofNat byte >>> (4 : UInt8) := by
    intro word byte small same
    apply UInt8.toNat_inj.mp
    have mask : word % 256 &&& 15 = word % 256 % 16 := Nat.and_two_pow_sub_one_eq_mod _ 4
    simp [Nat.shiftRight_eq_div_pow, mask, Nat.mod_eq_of_lt small, same]
  have restore : ∀ byte : UInt8, UInt8.ofNat byte.toNat = byte := fun byte => UInt8.ofNat_toNat
  simp only [and, splat, srli16]
  have first := (lane v (2 * (k.val / 2))).toNat_lt
  have second := (lane v (2 * (k.val / 2) + 1)).toNat_lt
  by_cases even : k.val % 2 = 0
  · have here : 2 * (k.val / 2) = k := by omega
    have self : lane v (2 * (k.val / 2)) = v k := by
      rw [here, lane_of_lt v k bound]
    rw [if_pos even, ← self, ← restore (lane v (2 * (k.val / 2)))]
    apply nibble _ _ first
    rw [restore, Nat.shiftRight_eq_div_pow]
    omega
  · have here : 2 * (k.val / 2) + 1 = k := by omega
    have self : lane v (2 * (k.val / 2) + 1) = v k := by
      rw [here, lane_of_lt v k bound]
    rw [if_neg even, ← self, ← restore (lane v (2 * (k.val / 2) + 1))]
    apply nibble _ _ second
    rw [restore, Nat.shiftRight_eq_div_pow, Nat.shiftRight_eq_div_pow]
    omega

/-- `vaddv_u8`: the sum of the lanes, modulo 256. -/
def vaddv (v : Lanes n) : UInt8 := (List.ofFn v).foldl (· + ·) 0

def vgetLow (v : Lanes 16) : Lanes 8 := fun k => lane v k

def vgetHigh (v : Lanes 16) : Lanes 8 := fun k => lane v (8 + k)

/-- `vextq_u8`: the lanes of `a` then `b`, from lane `count` on. -/
def vext (a b : Lanes 16) (count : Nat) : Lanes 16 := fun k =>
  if k + count < 16 then lane a (k + count) else lane b (k + count - 16)

/-- `vqtbl1q_u8`: a table lookup, zero for an index outside the table. -/
def vqtbl1 (table index : Lanes 16) : Lanes 16 := fun k => lane table (index k).toNat

def vshr (v : Lanes n) (count : UInt8) : Lanes n := fun k => v k >>> count

def vshl (v : Lanes n) (count : UInt8) : Lanes n := fun k => v k <<< count

/-- `vqtbl4q_u8`: a lookup in four registers, zero for an index outside them. -/
def vqtbl4 (table : Fin 4 → Lanes 16) (index : Lanes 16) : Lanes 16 := fun k =>
  if inside : (index k).toNat / 16 < 4 then lane (table ⟨_, inside⟩) ((index k).toNat % 16) else 0

theorem vqtbl4_load (inside : (index k).toNat < 64) :
    vqtbl4 (fun r => load 16 bytes (16 * r)) index k = bytes.getD (index k).toNat 0 := by
  have register : (index k).toNat / 16 < 4 := by omega
  rw [vqtbl4, dif_pos register, lane_load _ (Nat.mod_lt _ (by decide)), Nat.div_add_mod]

/-- `vld3q_u8`: 48 bytes dealt out to three registers. -/
def vld3 (bytes : List UInt8) (start : Nat) (register : Nat) : Lanes 16 := fun k =>
  bytes.getD (start + 3 * k + register) 0

/-- `vst4q_u8`: the 64 bytes stored from four registers in turn. -/
def vst4 (registers : Fin 4 → Lanes 16) : List UInt8 :=
  List.ofFn fun position : Fin 64 =>
    lane (registers ⟨position % 4, Nat.mod_lt _ (by decide)⟩) (position / 4)

/-- `vzip1q_u8`: the low halves interleaved. -/
def vzip1 (a b : Lanes 16) : Lanes 16 := fun k =>
  if k.val % 2 = 0 then lane a (k / 2) else lane b (k / 2)

/-- `vzip2q_u8`: the high halves interleaved. -/
def vzip2 (a b : Lanes 16) : Lanes 16 := fun k =>
  if k.val % 2 = 0 then lane a (8 + k / 2) else lane b (8 + k / 2)

/-- `vmaxvq_u8`: the largest lane. -/
def vmaxv (v : Lanes n) : UInt8 := (List.ofFn v).foldl max 0

theorem foldl_max_lt (items : List UInt8) (start bound : UInt8) :
    items.foldl max start < bound ↔ start < bound ∧ ∀ b ∈ items, b < bound := by
  induction items generalizing start with
  | nil => simp
  | cons b rest ih =>
    have larger : max start b < bound ↔ start < bound ∧ b < bound := by
      change (if start ≤ b then b else start) < bound ↔ _
      simp only [UInt8.le_iff_toNat_le, UInt8.lt_iff_toNat_lt]
      split <;> omega
    rw [List.foldl_cons, ih, List.forall_mem_cons, larger, and_assoc]

theorem vmaxv_lt (v : Lanes n) (positive : 0 < bound) :
    vmaxv v < bound ↔ ∀ k, v k < bound := by
  rw [vmaxv, foldl_max_lt]
  simp [positive]

theorem vmaxv_zero (v : Lanes n) : vmaxv v = 0 ↔ ∀ k, v k = 0 := by
  have small : ∀ b : UInt8, b = 0 ↔ b < 1 := by
    intro b
    rw [← UInt8.toNat_inj, UInt8.lt_iff_toNat_lt]
    change b.toNat = 0 ↔ b.toNat < 1
    omega
  simp only [small]
  exact vmaxv_lt v (by decide)

/-- `vshrn_n_u16`: each little-endian 16-bit pair shifted right and cut to a byte. -/
def vshrn (v : Lanes 16) (count : Nat) : Lanes 8 := fun k =>
  UInt8.ofNat (((lane v (2 * k)).toNat + 256 * (lane v (2 * k + 1)).toNat) >>> count)

/-- `vget_lane_u64`: the eight lanes as one little-endian word. -/
def vgetLaneU64 (v : Lanes 8) : BitVec 64 :=
  ofBits 64 fun k => (lane v (k / 8)).toBitVec.getLsbD (k % 8)

def boolLanes (marked : Nat → Bool) : Lanes n := fun k => bif marked k then 0xFF else 0

theorem movemask_boolLanes (marked : Nat → Bool) (inside : k < n) :
    (movemask (boolLanes marked : Lanes n)).getLsbD k = marked k := by
  rw [movemask, ofBits_getLsbD, lane_of_lt _ k inside, decide_eq_true inside, boolLanes]
  cases marked k <;> rfl

theorem vshrn_boolLanes (marked : Nat → Bool) (k : Nat) (inside : k < 64) :
    (vgetLaneU64 (vshrn (boolLanes marked) 4)).getLsbD k = marked (k / 4) := by
  have nibbles : ∀ even odd : Bool, ∀ j < 8, (UInt8.ofNat ((UInt8.toNat (bif even then 0xFF else 0) +
      256 * UInt8.toNat (bif odd then 0xFF else 0)) >>> 4)).toBitVec.getLsbD j =
      if j < 4 then even else odd := by
    decide
  rw [vgetLaneU64, ofBits_getLsbD, decide_eq_true inside, Bool.true_and, lane_of_lt _ _ (by omega),
    vshrn, lane_of_lt _ _ (by simp only; omega),
    lane_of_lt _ _ (by simp only; omega)]
  simp only [boolLanes]
  rw [nibbles _ _ (k % 8) (by omega)]
  split
  · congr 1
    omega
  · congr 1
    omega

end Align.Simd
