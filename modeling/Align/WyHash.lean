import Align.Buffers

/-! One-shot wyhash (`align_hash::wyhash`). Byte strings are lists; `rest` is the
slice `&key[p..]`, so the source's `i` is its length. A read past the end would
panic in the source; the loop guards keep at least 16 bytes ahead of every read.
Both loops are block folds, so the number of rounds follows from the length. -/
namespace Align.WyHash
open Buffers

abbrev Bytes := List UInt8

def secret0 : UInt64 := 0xa0761d6478bd642f
def secret1 : UInt64 := 0xe7037ed1a0b428db
def secret2 : UInt64 := 0x8ebc6af09c88c6e3
def secret3 : UInt64 := 0x589965cc75374cc3

/-- Low and high halves of the 128-bit product. -/
def wymum (a b : UInt64) : UInt64 × UInt64 :=
  let r := a.toNat * b.toNat
  (UInt64.ofNat r, UInt64.ofNat (r / 2 ^ 64))

def wymix (a b : UInt64) : UInt64 :=
  let r := wymum a b
  r.1 ^^^ r.2

def fromLeBytes (bytes : Bytes) : Nat :=
  bytes.foldr (fun byte acc => byte.toNat + 256 * acc) 0

def wyr8 (p : Bytes) : UInt64 := UInt64.ofNat (fromLeBytes (p.take 8))
def wyr4 (p : Bytes) : UInt64 := UInt64.ofNat (fromLeBytes (p.take 4))

/-- Reads 1..=3 trailing bytes into a 64-bit lane. -/
def wyr3 (p : Bytes) (k : Nat) : UInt64 :=
  ((p.getD 0 0).toUInt64 <<< 16) ||| ((p.getD (k >>> 1) 0).toUInt64 <<< 8) |||
    (p.getD (k - 1) 0).toUInt64

structure Lanes where
  seed : UInt64
  see1 : UInt64
  see2 : UInt64
  deriving DecidableEq

/-- One 48-byte round of the three-lane loop. -/
def round48 (p : Bytes) (lanes : Lanes) : Lanes where
  seed := wymix (wyr8 p ^^^ secret1) (wyr8 (p.drop 8) ^^^ lanes.seed)
  see1 := wymix (wyr8 (p.drop 16) ^^^ secret2) (wyr8 (p.drop 24) ^^^ lanes.see1)
  see2 := wymix (wyr8 (p.drop 32) ^^^ secret3) (wyr8 (p.drop 40) ^^^ lanes.see2)

/-- One 16-byte round of the single-lane loop. -/
def round16 (p : Bytes) (lanes : Lanes) : Lanes :=
  { lanes with seed := wymix (wyr8 p ^^^ secret1) (wyr8 (p.drop 8) ^^^ lanes.seed) }

/-- `seed ^= see1 ^ see2` after the three-lane loop. -/
def foldIn (lanes : Lanes) : Lanes :=
  { lanes with seed := lanes.seed ^^^ (lanes.see1 ^^^ lanes.see2) }

def mixSeed (seed : UInt64) : UInt64 := seed ^^^ wymix (seed ^^^ secret0) secret1

def initial (seed : UInt64) : Lanes := ⟨mixSeed seed, mixSeed seed, mixSeed seed⟩

/-- The two lanes of a key of at most 16 bytes. -/
def shortLanes (key : Bytes) (len : Nat) : UInt64 × UInt64 :=
  if len ≥ 4 then
    let off := (len >>> 3) <<< 2
    ((wyr4 key <<< 32) ||| wyr4 (key.drop off),
      (wyr4 (key.drop (len - 4)) <<< 32) ||| wyr4 (key.drop (len - 4 - off)))
  else if len > 0 then (wyr3 key len, 0)
  else (0, 0)

def finalMix (lanes : UInt64 × UInt64) (seed length : UInt64) : UInt64 :=
  let product := wymum (lanes.1 ^^^ secret1) (lanes.2 ^^^ seed)
  wymix (product.1 ^^^ secret0 ^^^ length) (product.2 ^^^ secret1)

instance blockNeZero : NeZero 16 := ⟨by decide⟩

def wyhash (key : Bytes) (seed : UInt64) : UInt64 :=
  let len := key.length
  if len ≤ 16 then
    finalMix (shortLanes key len) (mixSeed seed) (UInt64.ofNat len)
  else
    let wide := if len > 48 then
        let looped := blockLoop 48 round48 key (initial seed)
        (foldIn looped.1, looped.2)
      else (initial seed, key)
    let lanes := (blockLoop 16 round16 wide.2 wide.1).1
    finalMix (wyr8 (key.drop (len - 16)), wyr8 (key.drop (len - 8))) lanes.seed (UInt64.ofNat len)

/-! A round reads one block and nothing behind it. -/

theorem wyr8_congr (same : p.take 8 = q.take 8) : wyr8 p = wyr8 q := by
  rw [wyr8, same, wyr8]

theorem round48_congr (p q : Bytes) (lanes : Lanes) (same : p.take 48 = q.take 48) :
    round48 p lanes = round48 q lanes := by
  have lane : ∀ offset, offset + 8 ≤ 48 → wyr8 (p.drop offset) = wyr8 (q.drop offset) := by
    intro offset inside
    exact wyr8_congr (take_drop_congr inside same)
  have first : wyr8 p = wyr8 q := by simpa using lane 0 (by omega)
  simp only [round48, first, lane 8 (by omega), lane 16 (by omega), lane 24 (by omega),
    lane 32 (by omega), lane 40 (by omega)]

theorem round16_congr (p q : Bytes) (lanes : Lanes) (same : p.take 16 = q.take 16) :
    round16 p lanes = round16 q lanes := by
  have lane : ∀ offset, offset + 8 ≤ 16 → wyr8 (p.drop offset) = wyr8 (q.drop offset) := by
    intro offset inside
    exact wyr8_congr (take_drop_congr inside same)
  have first : wyr8 p = wyr8 q := by simpa using lane 0 (by omega)
  simp only [round16, first, lane 8 (by omega)]

/-! Boundaries fixed by the key length alone. -/

/-- Bytes consumed by the three-lane loop. -/
def tripleBytes (len : Nat) : Nat := if len > 48 then (len - 1) / 48 * 48 else 0

/-- Bytes consumed by the single-lane loop after it. -/
def singleBytes (len : Nat) : Nat :=
  if len > 16 then (len - tripleBytes len - 1) / 16 * 16 else 0

theorem process_bound (len : Nat) : tripleBytes len + singleBytes len ≤ len := by
  unfold singleBytes tripleBytes
  split <;> split <;> omega

/-- Lanes after the first `done` bytes have gone through both loops. `done` stands
on a block boundary; the fold-in happens as soon as the wide loop is complete. -/
def lanesAt (triple done : Nat) (key : Bytes) (start : Lanes) : Lanes :=
  if done < triple then rounds 48 round48 (done / 48) key start
  else
    let wide := if triple = 0 then start else foldIn (rounds 48 round48 (triple / 48) key start)
    rounds 16 round16 ((done - triple) / 16) (key.drop triple) wide

theorem wyhash_long (long : key.length > 16) :
    wyhash key seed =
      finalMix (wyr8 (key.drop (key.length - 16)), wyr8 (key.drop (key.length - 8)))
        (lanesAt (tripleBytes key.length) (tripleBytes key.length + singleBytes key.length)
          key (initial seed)).seed (UInt64.ofNat key.length) := by
  have notShort : ¬ key.length ≤ 16 := by omega
  have past : ¬ tripleBytes key.length + singleBytes key.length < tripleBytes key.length := by omega
  have rounds : (tripleBytes key.length + singleBytes key.length - tripleBytes key.length) / 16 =
    (key.length - tripleBytes key.length - 1) / 16 := by
    rw [Nat.add_sub_cancel_left, singleBytes, if_pos long, Nat.mul_div_cancel _ (by omega)]
  simp only [wyhash, notShort, ↓reduceIte, lanesAt, past, rounds, blockLoop_rounds]
  by_cases wide : key.length > 48
  · have nonzero : tripleBytes key.length ≠ 0 := by
      rw [tripleBytes, if_pos wide]
      omega
    have blocks : tripleBytes key.length / 48 = (key.length - 1) / 48 := by
      rw [tripleBytes, if_pos wide, Nat.mul_div_cancel _ (by omega)]
    have rest : key.drop ((key.length - 1) / 48 * 48) = key.drop (tripleBytes key.length) := by
      rw [tripleBytes, if_pos wide]
    simp only [wide, ↓reduceIte, nonzero, blocks, rest, List.length_drop]
  · have zero : tripleBytes key.length = 0 := by rw [tripleBytes, if_neg wide]
    simp only [wide, ↓reduceIte, zero, List.drop_zero, Nat.sub_zero]

-- The port's own vectors for the short lanes, and the value both PHF ends are pinned to.
example : wyhash [] 0 = 0x0409638ee2bde459 := by decide
example : wyhash [97] 1 = 0xa8412d091b5fe0a9 := by decide
example : wyhash [115, 99, 111, 114, 101] 0 = 0x1300a50cfadb78d9 := by decide

end Align.WyHash
