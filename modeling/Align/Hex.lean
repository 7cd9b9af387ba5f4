import Align.Simd
import Align.Transcode

/-! The runtime's hexadecimal encoders and decoder. Encoders write lower case
and fill a destination of exactly twice the input's length; the decoder takes
both cases, eight digits at a time and then pair by pair. -/
namespace Align.Hex
open Simd Transcode List

abbrev Bytes := List UInt8

/-- `0`–`9`, `a`–`f`. -/
def hexSymbols : Bytes :=
  (List.range 10).map (fun i => UInt8.ofNat (0x30 + i)) ++
    (List.range 6).map (fun i => UInt8.ofNat (0x61 + i))

def hexSymbol (nibble : UInt8) : UInt8 := hexSymbols.getD nibble.toNat 0

def encodePairs (data : Bytes) : Bytes :=
  data.flatMap fun byte : UInt8 => [hexSymbol (byte >>> 4), hexSymbol (byte &&& 15)]

def hexEncodeIntoScalar (data : Bytes) (outLen : Nat) : Option Bytes :=
  if data.length * 2 = outLen then some (encodePairs data) else none

def avx2Block (data : Bytes) : Bytes :=
  let alphabet := broadcast128 (load 16 hexSymbols 0)
  let mask := splat 32 0x0f
  let bytes := load 32 data 0
  let hi := shuffle alphabet (Simd.and (srli16 bytes 4) mask)
  let lo := shuffle alphabet (Simd.and bytes mask)
  let pairsLo := unpacklo hi lo
  let pairsHi := unpackhi hi lo
  List.ofFn (permute2x128 pairsLo pairsHi 0x20) ++ List.ofFn (permute2x128 pairsLo pairsHi 0x31)

def avx2Kernel : BlockKernel UInt8 UInt8 where
  need := 32
  step := 32
  width := 64
  advances := by decide
  within := by decide
  block := avx2Block

def hexEncodeIntoAvx2 (data : Bytes) (outLen : Nat) : Option Bytes :=
  avx2Kernel.run hexEncodeIntoScalar data outLen

def neonBlock (data : Bytes) : Bytes :=
  let alphabet := load 16 hexSymbols 0
  let mask := splat 16 0x0f
  let bytes := load 16 data 0
  let hi := vqtbl1 alphabet (Simd.and (vshr bytes 4) mask)
  let lo := vqtbl1 alphabet (Simd.and bytes mask)
  List.ofFn (vzip1 hi lo) ++ List.ofFn (vzip2 hi lo)

def neonKernel : BlockKernel UInt8 UInt8 where
  need := 16
  step := 16
  width := 32
  advances := by decide
  within := by decide
  block := neonBlock

def hexEncodeIntoNeon (data : Bytes) (outLen : Nat) : Option Bytes :=
  neonKernel.run hexEncodeIntoScalar data outLen

def hexEncodeInto (target : Target) (data : Bytes) (outLen : Nat) : Option Bytes :=
  if data.length * 2 ≠ outLen then none
  else match target with
    | .x86 avx2 =>
        if 32 ≤ data.length && avx2 then hexEncodeIntoAvx2 data outLen
        else hexEncodeIntoScalar data outLen
    | .aarch64 =>
        if 16 ≤ data.length then hexEncodeIntoNeon data outLen else hexEncodeIntoScalar data outLen
    | .other => hexEncodeIntoScalar data outLen

/-- `encoding.hex_encode`. -/
def hexEncode (target : Target) (data : Bytes) : Option Bytes :=
  hexEncodeInto target data (data.length * 2)

def hexDecodeTable : Bytes :=
  let digits := (List.range 10).foldl (fun table i => table.set (0x30 + i) (UInt8.ofNat i))
    (List.replicate 256 0xFF)
  (List.range 6).foldl (fun table i =>
    (table.set (0x41 + i) (UInt8.ofNat (10 + i))).set (0x61 + i) (UInt8.ofNat (10 + i))) digits

def hexValue (byte : UInt8) : UInt8 := hexDecodeTable.getD byte.toNat 0xFF

def decodePairs : Bytes → Option Bytes
  | hi :: lo :: rest =>
      let hi := hexValue hi
      let lo := hexValue lo
      if hi ||| lo = 0xFF then none else (decodePairs rest).map ((hi <<< 4 ||| lo) :: ·)
  | _ => some []

def decodeGroups : Bytes → Option Bytes
  | a :: b :: c :: d :: e :: f :: g :: h :: rest =>
      let a := hexValue a
      let b := hexValue b
      let c := hexValue c
      let d := hexValue d
      let e := hexValue e
      let f := hexValue f
      let g := hexValue g
      let h := hexValue h
      if a ||| b ||| c ||| d ||| e ||| f ||| g ||| h = 0xFF then none
      else (decodeGroups rest).map
        ([a <<< 4 ||| b, c <<< 4 ||| d, e <<< 4 ||| f, g <<< 4 ||| h] ++ ·)
  | rest => decodePairs rest

def hexDecodeImpl (input : Bytes) : Option Bytes :=
  if input.length % 2 ≠ 0 then none else decodeGroups input

theorem nibble_values (byte : UInt8) :
    (byte >>> 4).toNat = byte.toNat / 16 ∧ (byte &&& 15).toNat = byte.toNat % 16 ∧
      (byte >>> 4).toNat < 16 ∧ (byte &&& 15).toNat < 16 := by
  have small : byte.toNat < 256 := byte.toNat_lt
  have high : (byte >>> 4).toNat = byte.toNat / 16 := shiftRight_toNat _ (by decide)
  have low : (byte &&& 15).toNat = byte.toNat % 16 := (masks _).2.2.2.1
  omega

theorem encodePairs_length (data : Bytes) : (encodePairs data).length = data.length * 2 := by
  induction data with
  | nil => rfl
  | cons byte rest ih =>
    change (encodePairs rest).length + 2 = (rest.length + 1) * 2
    omega

/-- The symbol at output position `j`. -/
def pairSymbol (data : Bytes) (j : Nat) : UInt8 :=
  if j % 2 = 0 then hexSymbol (data.getD (j / 2) 0 >>> 4)
  else hexSymbol (data.getD (j / 2) 0 &&& 15)

theorem encodePairs_block (count : Nat) (data : Bytes) (enough : count ≤ data.length) :
    encodePairs data =
      (List.range (2 * count)).map (pairSymbol data) ++ encodePairs (data.drop count) := by
  induction count generalizing data with
  | zero => rfl
  | succ count ih =>
    cases data with
    | nil => cases enough
    | cons byte rest =>
      have later : ∀ j, pairSymbol (byte :: rest) (2 + j) = pairSymbol rest j := by
        intro j
        have half : (2 + j) / 2 = j / 2 + 1 := by omega
        have parity : (2 + j) % 2 = j % 2 := by omega
        simp only [pairSymbol, half, parity]
        rfl
      have tail : (List.range (2 * count)).map (pairSymbol (byte :: rest) ∘ (2 + ·)) =
        (List.range (2 * count)).map (pairSymbol rest) :=
        map_congr_left fun j _ => later j
      rw [Nat.mul_succ 2, Nat.add_comm (2 * count), range_add, map_append, map_map, tail, append_assoc]
      exact congrArg ([_, _] ++ ·) (ih rest (Nat.le_of_succ_le_succ enough))

theorem scalar_exact (data : Bytes) :
    hexEncodeIntoScalar data (encodePairs data).length = some (encodePairs data) := by
  rw [hexEncodeIntoScalar, if_pos (encodePairs_length _).symm]

theorem interleaved_block (half : Nat) (data : Bytes) (first second : Lanes (2 * half))
    (high low : Nat → UInt8) (high_digit : ∀ k < 2 * half, high k = hexSymbol (data.getD k 0 >>> 4))
    (low_digit : ∀ k < 2 * half, low k = hexSymbol (data.getD k 0 &&& 15))
    (lower : ∀ k, first k = if k.val % 2 = 0 then high (k / 2) else low (k / 2))
    (upper : ∀ k, second k = if k.val % 2 = 0 then high (half + k / 2) else low (half + k / 2)) :
    List.ofFn first ++ List.ofFn second = (List.range (4 * half)).map (pairSymbol data) := by
  have near : ∀ k, first k = pairSymbol data k := by
    intro k
    rw [lower, pairSymbol, high_digit _ (by omega), low_digit _ (by omega)]
  have far : ∀ k, second k = (pairSymbol data ∘ (2 * half + ·)) k := by
    intro k
    have parity : (2 * half + k.val) % 2 = k.val % 2 := by omega
    have place : (2 * half + k.val) / 2 = half + k / 2 := by omega
    rw [upper, Function.comp_apply, pairSymbol, parity, place, high_digit _ (by omega),
      low_digit _ (by omega)]
  have total : 4 * half = 2 * half + 2 * half := by omega
  rw [ofFn_eq_map_range _ _ near, ofFn_eq_map_range _ _ far, total, range_add, map_append, map_map]

theorem avx2_digit (inside : k < 32) (value : index ⟨k, inside⟩ = nibble) (small : nibble.toNat < 16) :
    lane (shuffle (broadcast128 (load 16 hexSymbols 0)) index) k = hexSymbol nibble := by
  rw [lane_of_lt _ _ inside, shuffle_broadcast _ _ (by rw [value]; exact small), value,
    lane_load _ small, Nat.zero_add, hexSymbol]

theorem neon_digit (inside : k < 16) (value : index ⟨k, inside⟩ = nibble) (small : nibble.toNat < 16) :
    lane (vqtbl1 (load 16 hexSymbols 0) index) k = hexSymbol nibble := by
  rw [lane_of_lt _ _ inside, vqtbl1, value, lane_load _ small, Nat.zero_add, hexSymbol]

theorem load_start (inside : k < n) :
    load n data 0 ⟨k, inside⟩ = data.getD k 0 := by
  simp only [load, Nat.zero_add]

theorem avx2_block (data : Bytes) : avx2Block data = (List.range 64).map (pairSymbol data) := by
  have high : ∀ k < 32, lane (shuffle (broadcast128 (load 16 hexSymbols 0))
    (Simd.and (srli16 (load 32 data 0) 4) (splat 32 0x0f))) k = hexSymbol (data.getD k 0 >>> 4) := by
    intro k inside
    apply avx2_digit inside
    · rw [high_nibble, load_start inside]
    · exact (nibble_values _).2.2.1
  have low : ∀ k < 32, lane (shuffle (broadcast128 (load 16 hexSymbols 0))
    (Simd.and (load 32 data 0) (splat 32 0x0f))) k = hexSymbol (data.getD k 0 &&& 15) := by
    intro k inside
    apply avx2_digit inside
    · rw [Simd.and, load_start inside, splat]
    · exact (nibble_values _).2.2.2
  exact interleaved_block 16 _ _ _ _ _ high low (fun k => (unpack_permute _ _ k).1)
    fun k => (unpack_permute _ _ k).2

theorem neon_block (data : Bytes) : neonBlock data = (List.range 32).map (pairSymbol data) := by
  have cut : ∀ byte : UInt8, byte >>> 4 &&& (0x0f : UInt8) = byte >>> 4 := by
    intro byte
    apply UInt8.toNat_inj.mp
    rw [(masks _).2.2.2.1, Nat.mod_eq_of_lt (nibble_values _).2.2.1]
  have high : ∀ k < 16, lane (vqtbl1 (load 16 hexSymbols 0)
    (Simd.and (vshr (load 16 data 0) 4) (splat 16 0x0f))) k = hexSymbol (data.getD k 0 >>> 4) := by
    intro k inside
    apply neon_digit inside
    · rw [Simd.and, vshr, load_start inside, splat, cut]
    · exact (nibble_values _).2.2.1
  have low : ∀ k < 16, lane (vqtbl1 (load 16 hexSymbols 0)
    (Simd.and (load 16 data 0) (splat 16 0x0f))) k = hexSymbol (data.getD k 0 &&& 15) := by
    intro k inside
    apply neon_digit inside
    · rw [Simd.and, load_start inside, splat]
    · exact (nibble_values _).2.2.2
  exact interleaved_block 8 _ _ _ _ _ high low (fun _ => rfl) fun _ => rfl

theorem avx2_exact (data : Bytes) :
    hexEncodeIntoAvx2 data (encodePairs data).length = some (encodePairs data) := by
  apply BlockKernel.run_eq
  · intro data enough
    exact (encodePairs_block 32 _ enough).trans (by rw [← avx2_block]; rfl)
  · intro data
    change (avx2Block data).length = 64
    rw [avx2_block, length_map, length_range]
  · exact scalar_exact

theorem neon_exact (data : Bytes) :
    hexEncodeIntoNeon data (encodePairs data).length = some (encodePairs data) := by
  apply BlockKernel.run_eq
  · intro data enough
    exact (encodePairs_block 16 _ enough).trans (by rw [← neon_block]; rfl)
  · intro data
    change (neonBlock data).length = 32
    rw [neon_block, length_map, length_range]
  · exact scalar_exact

theorem encodeInto_exact (target : Target) (data : Bytes) :
    hexEncodeInto target data (data.length * 2) = some (encodePairs data) := by
  have size := encodePairs_length data
  have scalar := scalar_exact data
  have avx2 := avx2_exact data
  have neon := neon_exact data
  rw [size] at scalar avx2 neon
  simp only [hexEncodeInto, ne_eq, not_true_eq_false, ↓reduceIte]
  cases target with
  | x86 detected =>
    dsimp only
    split <;> assumption
  | aarch64 =>
    dsimp only
    split <;> assumption
  | other => exact scalar

theorem hexValue_symbol (small : nibble.toNat < 16) :
    hexValue (hexSymbol nibble) = nibble := by
  have table : ∀ n < 16, hexValue (hexSymbol (UInt8.ofNat n)) = UInt8.ofNat n := by decide
  have here := table nibble.toNat small
  rwa [UInt8.ofNat_toNat] at here

theorem pair_recover (byte : UInt8) :
    hexValue (hexSymbol (byte >>> 4)) <<< 4 ||| hexValue (hexSymbol (byte &&& 15)) = byte ∧
      (hexValue (hexSymbol (byte >>> 4))).toNat < 16 ∧
      (hexValue (hexSymbol (byte &&& 15))).toNat < 16 := by
  rcases nibble_values _ with ⟨high, low, high_small, low_small⟩
  rw [hexValue_symbol high_small, hexValue_symbol low_small]
  have joined := shiftLeft_or (byte >>> 4) 4 (by decide) low_small
  refine ⟨UInt8.toNat_inj.mp (joined.trans ?_), high_small, low_small⟩
  omega

theorem or_digit {x y : UInt8} (first : x.toNat < 16) (second : y.toNat < 16) :
    (x ||| y).toNat < 16 := by
  exact Nat.or_lt_two_pow (n := 4) first second

theorem digit_valid (x : UInt8) (small : x.toNat < 16) : x ≠ 0xFF := by
  intro same
  rw [same] at small
  exact absurd small (by decide)

theorem decodePairs_encode (data : Bytes) : decodePairs (encodePairs data) = some data := by
  induction data with
  | nil => rfl
  | cons byte rest ih =>
    rcases pair_recover byte with ⟨whole, high, low⟩
    have valid := digit_valid _ (or_digit high low)
    change decodePairs (_ :: _ :: encodePairs rest) = _
    simp only [decodePairs, valid, whole, ih, ↓reduceIte, Option.map_some]

theorem decodeGroups_encode (data : Bytes) : decodeGroups (encodePairs data) = some data := by
  match data with
  | p :: q :: r :: s :: rest =>
    rcases pair_recover p with ⟨p_whole, p_high, p_low⟩
    rcases pair_recover q with ⟨q_whole, q_high, q_low⟩
    rcases pair_recover r with ⟨r_whole, r_high, r_low⟩
    rcases pair_recover s with ⟨s_whole, s_high, s_low⟩
    have valid := digit_valid _ (or_digit (or_digit (or_digit (or_digit
      (or_digit (or_digit (or_digit p_high p_low) q_high) q_low) r_high) r_low) s_high) s_low)
    have later := decodeGroups_encode rest
    change decodeGroups (_ :: _ :: _ :: _ :: _ :: _ :: _ :: _ :: encodePairs rest) = _
    simp only [decodeGroups, valid, p_whole, q_whole, r_whole, s_whole, later, ↓reduceIte, Option.map_some,
      cons_append, nil_append]
  | [] => exact decodePairs_encode []
  | [p] => exact decodePairs_encode [p]
  | [p, q] => exact decodePairs_encode [p, q]
  | [p, q, r] => exact decodePairs_encode [p, q, r]

theorem decode_encode (data : Bytes) : hexDecodeImpl (encodePairs data) = some data := by
  have even : (encodePairs data).length % 2 = 0 := by
    rw [encodePairs_length]
    omega
  simp only [hexDecodeImpl, even, ne_eq, not_true_eq_false, ↓reduceIte]
  exact decodeGroups_encode _

end Align.Hex
