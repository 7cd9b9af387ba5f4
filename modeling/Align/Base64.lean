import Align.Simd
import Align.Transcode

/-! The runtime's Base64 encoders and decoder. An encoder fills a destination
whose exact length is computed first; a store that would leave it, or a length
that differs, is no result. Both alphabets share their first 62 symbols, which
the vector lookup of the AVX2 kernel builds in. Sizes are natural numbers: a
slice is shorter than 2^63, so the checked size arithmetic never fails. -/
namespace Align.Base64
open Simd Transcode

abbrev Bytes := List UInt8

/-- `A`–`Z`, `a`–`z`, `0`–`9`. -/
def commonSymbols : Bytes :=
  (List.range 26).map (fun i => UInt8.ofNat (0x41 + i)) ++
    (List.range 26).map (fun i => UInt8.ofNat (0x61 + i)) ++
    (List.range 10).map (fun i => UInt8.ofNat (0x30 + i))

def padByte : UInt8 := 0x3D

structure Alphabet where
  symbols : Bytes
  size : symbols.length = 64
  common : symbols.take 62 = commonSymbols
  distinct : symbols.Nodup
  unpadded : padByte ∉ symbols

/-- Ends in `+` and `/`. -/
def base64Std : Alphabet :=
  ⟨commonSymbols ++ [0x2B, 0x2F], by decide, by decide, by decide, by decide⟩

/-- Ends in `-` and `_`. -/
def base64Url : Alphabet :=
  ⟨commonSymbols ++ [0x2D, 0x5F], by decide, by decide, by decide, by decide⟩

def Alphabet.symbol (alphabet : Alphabet) (i : Nat) : UInt8 := alphabet.symbols.getD i 0

def base64DecodeTable (alphabet : Alphabet) : Bytes := reverseTable alphabet.symbol 0xFF 64

def base64EncodedLen (inputLen : Nat) (pad : Bool) : Nat :=
  inputLen / 3 * 4 + match inputLen % 3, pad with
    | 0, _ => 0
    | _, true => 4
    | 1, false => 2
    | _, false => 3

/-- The three bytes of a group as one number, the first the most significant. -/
def groupBits (a b c : UInt8) : Nat := a.toNat <<< 16 ||| b.toNat <<< 8 ||| c.toNat

/-- The loop over whole groups and the match on the remainder. -/
def encodeGroups (alphabet : Alphabet) (pad : Bool) : Bytes → Bytes
  | a :: b :: c :: rest =>
      let n := groupBits a b c
      alphabet.symbol (n >>> 18 &&& 63) :: alphabet.symbol (n >>> 12 &&& 63) ::
        alphabet.symbol (n >>> 6 &&& 63) :: alphabet.symbol (n &&& 63) ::
        encodeGroups alphabet pad rest
  | [a] =>
      let n := groupBits a 0 0
      [alphabet.symbol (n >>> 18 &&& 63), alphabet.symbol (n >>> 12 &&& 63)] ++
        if pad then [padByte, padByte] else []
  | [a, b] =>
      let n := groupBits a b 0
      [alphabet.symbol (n >>> 18 &&& 63), alphabet.symbol (n >>> 12 &&& 63),
        alphabet.symbol (n >>> 6 &&& 63)] ++ if pad then [padByte] else []
  | [] => []

def base64EncodeIntoScalar (alphabet : Alphabet) (pad : Bool) (data : Bytes) (outLen : Nat) :
    Option Bytes :=
  if base64EncodedLen data.length pad = outLen then some (encodeGroups alphabet pad data) else none

/-- The byte order the AVX2 kernel brings each group into. -/
def avx2Shuffle : Bytes := [1, 0, 2, 1, 4, 3, 5, 4, 7, 6, 8, 7, 10, 9, 11, 10]

/-- What is added to an index, by the selector of its range. -/
def avx2Offsets (alphabet : Alphabet) : Bytes :=
  [65, 71] ++ List.replicate 10 (-4) ++
    [alphabet.symbol 62 - 62, alphabet.symbol 63 - 63, 0, 0]

def avx2Indices (data : Bytes) : Lanes 32 :=
  let input := setM128i (load 16 data 12) (load 16 data 0)
  let shuffled := shuffle input (broadcast128 (load 16 avx2Shuffle 0))
  let hiBits := mulhi16 (Simd.and shuffled (set1Epi32 0x0fc0fc00)) (set1Epi32 0x04000040)
  let loBits := mullo16 (Simd.and shuffled (set1Epi32 0x003f03f0)) (set1Epi32 0x01000010)
  Simd.or hiBits loBits

def avx2Block (alphabet : Alphabet) (data : Bytes) : Lanes 32 :=
  let lut := broadcast128 (load 16 (avx2Offsets alphabet) 0)
  let indices := avx2Indices data
  let selector := Simd.sub (subs indices (splat 32 51)) (cmpgt indices (splat 32 25))
  Simd.add indices (shuffle lut selector)

def avx2Kernel (alphabet : Alphabet) : BlockKernel UInt8 UInt8 where
  need := 28
  step := 24
  width := 32
  advances := by decide
  within := by decide
  block data := List.ofFn (avx2Block alphabet data)

def base64EncodeIntoAvx2 (alphabet : Alphabet) (pad : Bool) (data : Bytes) (outLen : Nat) :
    Option Bytes :=
  (avx2Kernel alphabet).run (base64EncodeIntoScalar alphabet pad) data outLen

def neonBlock (alphabet : Alphabet) (data : Bytes) : Bytes :=
  let table : Fin 4 → Lanes 16 := fun r => load 16 alphabet.symbols (16 * r)
  let a := vld3 data 0 0
  let b := vld3 data 0 1
  let c := vld3 data 0 2
  let s0 := vshr a 2
  let s1 := Simd.or (vshl (Simd.and a (splat 16 3)) 4) (vshr b 4)
  let s2 := Simd.or (vshl (Simd.and b (splat 16 15)) 2) (vshr c 6)
  let s3 := Simd.and c (splat 16 63)
  vst4 fun r => vqtbl4 table (match r with | 0 => s0 | 1 => s1 | 2 => s2 | 3 => s3)

def neonKernel (alphabet : Alphabet) : BlockKernel UInt8 UInt8 where
  need := 48
  step := 48
  width := 64
  advances := by decide
  within := by decide
  block := neonBlock alphabet

def base64EncodeIntoNeon (alphabet : Alphabet) (pad : Bool) (data : Bytes) (outLen : Nat) :
    Option Bytes :=
  (neonKernel alphabet).run (base64EncodeIntoScalar alphabet pad) data outLen

def base64EncodeInto (target : Target) (alphabet : Alphabet) (pad : Bool) (data : Bytes)
    (outLen : Nat) : Option Bytes :=
  if base64EncodedLen data.length pad ≠ outLen then none
  else match target with
    | .x86 avx2 =>
        if 32 ≤ data.length && avx2 then base64EncodeIntoAvx2 alphabet pad data outLen
        else base64EncodeIntoScalar alphabet pad data outLen
    | .aarch64 =>
        if 48 ≤ data.length then base64EncodeIntoNeon alphabet pad data outLen
        else base64EncodeIntoScalar alphabet pad data outLen
    | .other => base64EncodeIntoScalar alphabet pad data outLen

/-- `encoding.base64_encode`: the standard alphabet, padded. -/
def base64Encode (target : Target) (data : Bytes) : Option Bytes :=
  base64EncodeInto target base64Std true data (base64EncodedLen data.length true)

/-- `encoding.base64url_encode`: the URL-safe alphabet, unpadded. -/
def base64urlEncode (target : Target) (data : Bytes) : Option Bytes :=
  base64EncodeInto target base64Url false data (base64EncodedLen data.length false)

/-- The loop that splits off trailing padding, at most two bytes of it: the end
of the content and the number of pads. -/
def splitPads (input : Bytes) : Nat → Nat → Option (Nat × Nat)
  | 0, pads => some (0, pads)
  | stop + 1, pads =>
      if input.getD stop 0 = padByte then
        if pads = 2 then none else splitPads input stop (pads + 1)
      else some (stop + 1, pads)

def decodeTail (value : UInt8 → UInt8) : Bytes → Option Bytes
  | [] => some []
  | [a, b] =>
      let a := value a
      let b := value b
      if a ||| b = 0xFF ∨ b &&& 0x0F ≠ 0 then none else some [a <<< 2 ||| b >>> 4]
  | [a, b, c] =>
      let a := value a
      let b := value b
      let c := value c
      if a ||| b ||| c = 0xFF ∨ c &&& 0x03 ≠ 0 then none
      else some [a <<< 2 ||| b >>> 4, b <<< 4 ||| c >>> 2]
  | _ => none

def decodeQuanta (value : UInt8 → UInt8) : Bytes → Option Bytes
  | a :: b :: c :: d :: rest =>
      let a := value a
      let b := value b
      let c := value c
      let d := value d
      if a ||| b ||| c ||| d = 0xFF then none
      else (decodeQuanta value rest).map
        ([a <<< 2 ||| b >>> 4, b <<< 4 ||| c >>> 2, c <<< 6 ||| d] ++ ·)
  | _ => some []

def base64DecodeImpl (input : Bytes) (url : Bool) : Option Bytes :=
  let table := base64DecodeTable (if url then base64Url else base64Std)
  let value := fun byte : UInt8 => table.getD byte.toNat 0xFF
  if input.head?.any (fun byte => value byte == 0xFF) then none
  else match splitPads input input.length 0 with
    | none => none
    | some (stop, pads) =>
        let content := input.take stop
        if content.length % 4 = 1 then none
        else if 0 < pads ∧ (content.length + pads) % 4 ≠ 0 then none
        else match decodeTail value (content.drop (content.length / 4 * 4)) with
          | none => none
          | some tail => (decodeQuanta value content).map (· ++ tail)

end Align.Base64
