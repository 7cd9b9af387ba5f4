import Align.Base64

/-! Every Base64 encoder writes the same bytes. A group's four indices are
written as plain arithmetic on its three bytes; the scalar loop, the AVX2
multiplications and the NEON shifts are each shown to compute them, and the
block kernels then agree with the scalar loop over a whole input. -/
namespace Align.Base64
open Simd Transcode List

/-- The four six-bit indices of a group. -/
def sextet (a b c : UInt8) : Nat → Nat
  | 0 => a.toNat / 4
  | 1 => a.toNat % 4 * 16 + b.toNat / 16
  | 2 => b.toNat % 16 * 4 + c.toNat / 64
  | _ => c.toNat % 64

theorem sextet_lt (a b c : UInt8) (j : Nat) : sextet a b c j < 64 := by
  have first : a.toNat < 256 := a.toNat_lt
  have second : b.toNat < 256 := b.toNat_lt
  have third : c.toNat < 256 := c.toNat_lt
  unfold sextet
  split <;> omega

theorem groupBits_eq (a b c : UInt8) :
    groupBits a b c = a.toNat * 65536 + b.toNat * 256 + c.toNat := by
  have second : b.toNat < 2 ^ 8 := b.toNat_lt
  have third : c.toNat < 2 ^ 8 := c.toNat_lt
  have low : b.toNat <<< 8 ||| c.toNat = 2 ^ 8 * b.toNat + c.toNat := by
    rw [Nat.shiftLeft_eq, Nat.mul_comm, Nat.two_pow_add_eq_or_of_lt third]
  have below : 2 ^ 8 * b.toNat + c.toNat < 2 ^ 16 := by omega
  rw [groupBits, Nat.or_assoc, low, Nat.shiftLeft_eq, Nat.mul_comm, ← Nat.two_pow_add_eq_or_of_lt below]
  omega

theorem groupBits_sextet (a b c : UInt8) :
    groupBits a b c >>> 18 &&& 63 = sextet a b c 0 ∧
      groupBits a b c >>> 12 &&& 63 = sextet a b c 1 ∧
      groupBits a b c >>> 6 &&& 63 = sextet a b c 2 ∧ groupBits a b c &&& 63 = sextet a b c 3 := by
  have first : a.toNat < 256 := a.toNat_lt
  have second : b.toNat < 256 := b.toNat_lt
  have third : c.toNat < 256 := c.toNat_lt
  have cut : ∀ n : Nat, n &&& 63 = n % 64 := fun n => Nat.and_two_pow_sub_one_eq_mod n 6
  simp only [cut, Nat.shiftRight_eq_div_pow, groupBits_eq, sextet]
  refine ⟨?_, ?_, ?_, ?_⟩ <;> omega

variable (alphabet : Alphabet) (pad : Bool) (a b c : UInt8)

theorem encodeGroups_cons (rest : Bytes) :
    encodeGroups alphabet pad (a :: b :: c :: rest) =
      alphabet.symbol (sextet a b c 0) :: alphabet.symbol (sextet a b c 1) ::
        alphabet.symbol (sextet a b c 2) :: alphabet.symbol (sextet a b c 3) ::
        encodeGroups alphabet pad rest := by
  rcases groupBits_sextet a b c with ⟨zero, one, two, three⟩
  simp only [encodeGroups, zero, one, two, three]

theorem encodeGroups_one :
    encodeGroups alphabet pad [a] =
      [alphabet.symbol (sextet a 0 0 0), alphabet.symbol (sextet a 0 0 1)] ++
        if pad then [padByte, padByte] else [] := by
  rcases groupBits_sextet a 0 0 with ⟨zero, one, -, -⟩
  simp only [encodeGroups, zero, one]

theorem encodeGroups_two :
    encodeGroups alphabet pad [a, b] =
      [alphabet.symbol (sextet a b 0 0), alphabet.symbol (sextet a b 0 1),
        alphabet.symbol (sextet a b 0 2)] ++ if pad then [padByte] else [] := by
  rcases groupBits_sextet a b 0 with ⟨zero, one, two, -⟩
  simp only [encodeGroups, zero, one, two]

theorem base64EncodedLen_group (inputLen : Nat) (pad : Bool) :
    base64EncodedLen (inputLen + 3) pad = base64EncodedLen inputLen pad + 4 := by
  unfold base64EncodedLen
  rw [Nat.add_div_right _ (by decide : 0 < 3), Nat.add_mod_right]
  omega

variable (alphabet : Alphabet) (pad : Bool) (data : Bytes)

theorem encodeGroups_length :
    (encodeGroups alphabet pad data).length = base64EncodedLen data.length pad := by
  fun_induction encodeGroups alphabet pad data with
  | case1 a b c rest n ih =>
    have count : (a :: b :: c :: rest).length = rest.length + 3 := rfl
    rw [count, base64EncodedLen_group, ← ih]
    rfl
  | case2 a n => cases pad <;> simp [base64EncodedLen]
  | case3 a b n => cases pad <;> simp [base64EncodedLen]
  | case4 => cases pad <;> simp [base64EncodedLen]

/-- The symbol at output position `j` of a sequence of whole groups. -/
def groupSymbol (alphabet : Alphabet) (data : Bytes) (j : Nat) : UInt8 :=
  alphabet.symbol (sextet (data.getD (3 * (j / 4)) 0) (data.getD (3 * (j / 4) + 1) 0)
    (data.getD (3 * (j / 4) + 2) 0) (j % 4))

theorem encodeGroups_block (count : Nat) (data : Bytes) (enough : 3 * count ≤ data.length) :
    encodeGroups alphabet pad data =
      (List.range (4 * count)).map (groupSymbol alphabet data) ++
        encodeGroups alphabet pad (data.drop (3 * count)) := by
  induction count generalizing data with
  | zero => rfl
  | succ count ih =>
    match data with
    | [] | [_] | [_, _] => simp only [length_cons, length_nil] at enough; omega
    | a :: b :: c :: rest =>
      have later : ∀ j, groupSymbol alphabet (a :: b :: c :: rest) (4 + j) =
        groupSymbol alphabet rest j := by
        intro j
        have group : 3 * ((4 + j) / 4) = 3 * (j / 4) + 3 := by omega
        have place : (4 + j) % 4 = j % 4 := by omega
        simp only [groupSymbol, group, place]
        rfl
      have left : 3 * count ≤ rest.length := by
        simp only [length_cons] at enough
        omega
      have tail : (List.range (4 * count)).map (groupSymbol alphabet (a :: b :: c :: rest) ∘ (4 + ·)) =
        (List.range (4 * count)).map (groupSymbol alphabet rest) :=
        map_congr_left fun j _ => later j
      rw [encodeGroups_cons, ih rest left, Nat.mul_succ 4, Nat.add_comm (4 * count), range_add, map_append,
        map_map, tail, Nat.mul_succ 3, append_assoc]
      rfl

theorem scalar_exact :
    base64EncodeIntoScalar alphabet pad data (encodeGroups alphabet pad data).length =
      some (encodeGroups alphabet pad data) := by
  rw [base64EncodeIntoScalar, if_pos (encodeGroups_length _ _ _).symm]

theorem avx2_shuffled (j : Nat) (group : q < 8) (place : j < 4) :
    lane (shuffle (setM128i (load 16 data 12) (load 16 data 0))
      (broadcast128 (load 16 avx2Shuffle 0))) (4 * q + j) =
      data.getD (3 * q + [1, 0, 2, 1].getD j 0) 0 := by
  have inside : 4 * q + j < 32 := by omega
  have order : ∀ k < 16, (avx2Shuffle.getD k 0).toNat = 3 * (k / 4) + [1, 0, 2, 1].getD (k % 4) 0 ∧
    avx2Shuffle.getD k 0 < 0x80 := by
    decide
  have short : ∀ i < 4, [1, 0, 2, 1].getD i 0 < 3 := by decide
  have spread := short j place
  rw [lane_of_lt _ _ inside, shuffle]
  have index : broadcast128 (load 16 avx2Shuffle 0) ⟨4 * q + j, inside⟩ =
    avx2Shuffle.getD ((4 * q + j) % 16) 0 := by
    rw [broadcast128, lane_load _ (Nat.mod_lt _ (by decide)), Nat.zero_add]
  rcases order ((4 * q + j) % 16) (Nat.mod_lt _ (by decide)) with ⟨value, small⟩
  have last : (4 * q + j) % 16 % 4 = j := by omega
  have within : (4 * q + j) % 16 / 4 = q % 4 := by omega
  have half : (4 * q + j) / 16 = q / 4 := by omega
  rw [last, within] at value
  rw [index, if_neg (UInt8.not_le.mpr small), value]
  simp only [half]
  have position : 16 * (q / 4) + (3 * (q % 4) + [1, 0, 2, 1].getD j 0) % 16 < 32 := by omega
  rw [lane_of_lt _ _ position, setM128i]
  by_cases lower : q < 4
  · have zero : q / 4 = 0 := by omega
    have same : q % 4 = q := by omega
    simp only [zero, same]
    rw [if_pos (by omega), lane_load _ (by omega)]
    congr 1
    omega
  · have one : q / 4 = 1 := by omega
    have same : q % 4 = q - 4 := by omega
    simp only [one, same]
    rw [if_neg (by omega), lane_load _ (by omega)]
    congr 1
    omega

theorem masked_words (v : Lanes 32) (mask q : Nat) (group : q < 8) :
    word16 (Simd.and v (set1Epi32 mask)) (2 * q) =
        (lane v (4 * q) &&& UInt8.ofNat mask).toNat +
          256 * (lane v (4 * q + 1) &&& UInt8.ofNat (mask / 256)).toNat ∧
      word16 (Simd.and v (set1Epi32 mask)) (2 * q + 1) =
        (lane v (4 * q + 2) &&& UInt8.ofNat (mask / 65536)).toNat +
          256 * (lane v (4 * q + 3) &&& UInt8.ofNat (mask / 16777216)).toNat := by
  have at0 : 2 * (2 * q) = 4 * q := by omega
  have at2 : 2 * (2 * q + 1) = 4 * q + 2 := by omega
  have phase : ∀ j, j < 4 → (4 * q + j) % 4 = j := by omega
  have phase0 : 4 * q % 4 = 0 := by omega
  simp only [word16, lane_and, at0, at2, Nat.add_assoc]
  rw [lane_set1Epi32 (by omega), lane_set1Epi32 (by omega), lane_set1Epi32 (by omega),
    lane_set1Epi32 (by omega), phase0, phase 1 (by decide), phase 2 (by decide),
    phase (1 + 1 + 1) (by decide)]
  constructor <;> simp

theorem factor_words (factor q : Nat) (group : q < 8) :
    word16 (set1Epi32 factor : Lanes 32) (2 * q) = factor % 65536 ∧
      word16 (set1Epi32 factor : Lanes 32) (2 * q + 1) = factor / 65536 % 65536 := by
  have at0 : 2 * (2 * q) % 4 = 0 := by omega
  have at1 : (2 * (2 * q) + 1) % 4 = 1 := by omega
  have at2 : 2 * (2 * q + 1) % 4 = 2 := by omega
  have at3 : (2 * (2 * q + 1) + 1) % 4 = 3 := by omega
  simp only [word16]
  rw [lane_set1Epi32 (by omega), lane_set1Epi32 (by omega), lane_set1Epi32 (by omega),
    lane_set1Epi32 (by omega), at0, at1, at2, at3]
  simp only [UInt8.toNat_ofNat']
  omega

theorem avx2_multiplied (v : Lanes 32) (a b c : UInt8) (group : q < 8)
    (zero : lane v (4 * q) = b) (one : lane v (4 * q + 1) = a) (two : lane v (4 * q + 2) = c)
    (three : lane v (4 * q + 3) = b) (j : Nat) (place : j < 4) :
    (lane (Simd.or (mulhi16 (Simd.and v (set1Epi32 0x0fc0fc00)) (set1Epi32 0x04000040))
      (mullo16 (Simd.and v (set1Epi32 0x003f03f0)) (set1Epi32 0x01000010))) (4 * q + j)).toNat =
      sextet a b c j := by
  have small : a.toNat < 256 ∧ b.toNat < 256 ∧ c.toNat < 256 :=
    ⟨a.toNat_lt, b.toNat_lt, c.toNat_lt⟩
  rcases masked_words v _ q group with ⟨high0, high1⟩
  rcases masked_words v _ q group with ⟨low0, low1⟩
  rcases factor_words 0x04000040 q group with ⟨up0, up1⟩
  rcases factor_words 0x01000010 q group with ⟨down0, down1⟩
  rw [zero, one] at high0 low0
  rw [two, three] at high1 low1
  -- The masks _ the words down to the bits of one index each.
  have hi0 : word16 (Simd.and v (set1Epi32 0x0fc0fc00)) (2 * q) = 256 * (a.toNat / 4 * 4) := by
    rw [high0, ← (masks a).1]
    simp
  have hi1 : word16 (Simd.and v (set1Epi32 0x0fc0fc00)) (2 * q + 1) =
    c.toNat / 64 * 64 + 256 * (b.toNat % 16) := by
    rw [high1, ← (masks c).2.1, ← (masks b).2.2.2.1]
    rfl
  have lo0 : word16 (Simd.and v (set1Epi32 0x003f03f0)) (2 * q) =
    b.toNat / 16 * 16 + 256 * (a.toNat % 4) := by
    rw [low0, ← (masks b).2.2.1, ← (masks a).2.2.2.2.1]
    rfl
  have lo1 : word16 (Simd.and v (set1Epi32 0x003f03f0)) (2 * q + 1) = c.toNat % 64 := by
    rw [low1, ← (masks c).2.2.2.2.2]
    simp
  have left : ∀ x y : Nat, y % 256 = 0 → (UInt8.ofNat x ||| UInt8.ofNat y).toNat = x % 256 := by
    intro x y clear
    simp [clear]
  have right : ∀ x y : Nat, x % 256 = 0 → (UInt8.ofNat x ||| UInt8.ofNat y).toNat = y % 256 := by
    intro x y clear
    simp [clear]
  have at0 : 4 * q = 2 * (2 * q) := by omega
  have at1 : 4 * q + 1 = 2 * (2 * q) + 1 := by omega
  have at2 : 4 * q + 2 = 2 * (2 * q + 1) := by omega
  have at3 : 4 * q + 3 = 2 * (2 * q + 1) + 1 := by omega
  rw [lane_or, mulhi16, mullo16]
  match j, place with
  | 0, _ =>
    rw [Nat.add_zero, at0, lane_ofWords_even _ (by omega), lane_ofWords_even _ (by omega),
      hi0, lo0, up0, down0, left _ _ (by omega), sextet]
    omega
  | 1, _ =>
    rw [at1, lane_ofWords_odd _ (by omega), lane_ofWords_odd _ (by omega),
      hi0, lo0, up0, down0, right _ _ (by omega), sextet]
    omega
  | 2, _ =>
    rw [at2, lane_ofWords_even _ (by omega), lane_ofWords_even _ (by omega),
      hi1, lo1, up1, down1, left _ _ (by omega), sextet]
    omega
  | 3, _ =>
    rw [at3, lane_ofWords_odd _ (by omega), lane_ofWords_odd _ (by omega),
      hi1, lo1, up1, down1, right _ _ (by omega)]
    change _ = c.toNat % 64
    omega

theorem avx2_indices (k : Fin 32) :
    (avx2Indices data k).toNat =
      sextet (data.getD (3 * (k / 4)) 0) (data.getD (3 * (k / 4) + 1) 0)
        (data.getD (3 * (k / 4) + 2) 0) (k % 4) := by
  have bound := k.isLt
  have group : k.val / 4 < 8 := by omega
  have whole : 4 * (k.val / 4) + k.val % 4 = k := by omega
  have computed := avx2_multiplied _ _ _ _ group (avx2_shuffled _ 0 group (by decide))
    (avx2_shuffled _ 1 group (by decide))
    (avx2_shuffled _ 2 group (by decide))
    (avx2_shuffled data 3 group (by decide)) (k.val % 4) (Nat.mod_lt _ (by decide))
  rw [whole, lane_of_lt _ _ bound] at computed
  exact computed

theorem symbol_common (inside : i < 62) :
    alphabet.symbol i = commonSymbols.getD i 0 := by
  rw [← alphabet.common, Alphabet.symbol, getD_eq_getElem?_getD, getD_eq_getElem?_getD,
    getElem?_take_of_lt inside]

/-- The range an index falls into: the two letter cases, then one per index. -/
def indexRange (i : Nat) : Nat := if i < 26 then 0 else if i < 52 then 1 else i - 50

theorem selector_range (inside : index.toNat < 64) :
    ((if 51 ≤ index then index - 51 else 0) -
      (bif (25 : UInt8).toBitVec.slt index.toBitVec then 0xFF else 0) : UInt8).toNat =
      indexRange index.toNat := by
  have table : ∀ n < 64, ((if 51 ≤ UInt8.ofNat n then UInt8.ofNat n - 51 else 0) -
    (bif (25 : UInt8).toBitVec.slt (UInt8.ofNat n).toBitVec then 0xFF else 0) : UInt8).toNat =
    indexRange n := by
    decide
  have here := table index.toNat inside
  rwa [UInt8.ofNat_toNat] at here

theorem offset_symbol (inside : index.toNat < 64) :
    index + (avx2Offsets alphabet).getD (indexRange index.toNat) 0 =
      alphabet.symbol index.toNat := by
  have table : ∀ n < 62, indexRange n < 12 ∧
    UInt8.ofNat n + ([65, 71] ++ List.replicate 10 (-4) : Bytes).getD (indexRange n) 0 =
      commonSymbols.getD n 0 := by
    decide
  have restore : ∀ byte symbol : UInt8, byte + (symbol - byte) = symbol := by
    intro byte symbol
    rw [UInt8.add_comm, UInt8.sub_add_cancel]
  by_cases common : index.toNat < 62
  · rcases table index.toNat common with ⟨below, here⟩
    rw [UInt8.ofNat_toNat] at here
    rw [symbol_common _ common, ← here, avx2Offsets, getD_eq_getElem?_getD, getD_eq_getElem?_getD,
      getElem?_append_left below]
  · have last : index.toNat = 62 ∨ index.toNat = 63 := by omega
    rcases last with here | here
    · have same : index = 62 := UInt8.toNat_inj.mp here
      subst same
      exact restore 62 (alphabet.symbol 62)
    · have same : index = 63 := UInt8.toNat_inj.mp here
      subst same
      exact restore 63 (alphabet.symbol 63)

theorem avx2_lane (k : Fin 32) :
    avx2Block alphabet data k = groupSymbol alphabet data k := by
  have computed := avx2_indices data k
  have inside : (avx2Indices data k).toNat < 64 := by
    rw [computed]
    exact sextet_lt _ _ _ _
  have range := selector_range inside
  have small : indexRange (avx2Indices data k).toNat < 16 := by
    unfold indexRange
    split_ifs <;> omega
  have found := offset_symbol alphabet inside
  have selected := shuffle_broadcast (load 16 (avx2Offsets alphabet) 0)
    (Simd.sub (subs (avx2Indices data) (splat 32 51)) (cmpgt (avx2Indices data) (splat 32 25)))
    (by rw [Simd.sub, subs, cmpgt, splat, splat, range]; exact small)
  rw [groupSymbol, ← computed, ← found, avx2Block]
  simp only [Simd.add]
  rw [selected, Simd.sub, subs, cmpgt, splat, splat, range, lane_load _ small, Nat.zero_add]

theorem neon_sextet (a b c : UInt8) :
    (a >>> 2).toNat = sextet a b c 0 ∧
      ((a &&& 3) <<< 4 ||| b >>> 4).toNat = sextet a b c 1 ∧
      ((b &&& 15) <<< 2 ||| c >>> 6).toNat = sextet a b c 2 ∧ (c &&& 63).toNat = sextet a b c 3 := by
  have second : b.toNat < 256 := b.toNat_lt
  have third : c.toNat < 256 := c.toNat_lt
  have high : (b >>> 4).toNat = b.toNat / 16 := shiftRight_toNat b (by decide)
  have top : (c >>> 6).toNat = c.toNat / 64 := shiftRight_toNat c (by decide)
  refine ⟨shiftRight_toNat a (by decide), ?_, ?_, (masks c).2.2.2.2.2⟩
  · have joined := shiftLeft_or (a &&& 3) 4 (by decide) (by rw [high]; omega)
    rw [high, (masks a).2.2.2.2.1] at joined
    exact joined.trans (by simp only [sextet]; omega)
  · have joined := shiftLeft_or (b &&& 15) 2 (by decide) (by rw [top]; omega)
    rw [top, (masks b).2.2.2.1] at joined
    exact joined.trans (by simp only [sextet]; omega)

theorem neon_lookup (inside : k < 16) (a b c : UInt8) (value : (index ⟨k, inside⟩).toNat = sextet a b c j) :
    lane (vqtbl4 (fun r => load 16 alphabet.symbols (16 * r)) index) k =
      alphabet.symbol (sextet a b c j) := by
  rw [lane_of_lt _ _ inside, vqtbl4_load (by rw [value]; exact sextet_lt _ _ _ _), value]
  rfl

theorem neon_block :
    neonBlock alphabet data = (List.range 64).map (groupSymbol alphabet data) := by
  have stored : (neonBlock alphabet data).length = 64 := length_ofFn
  apply ext_getElem
  · rw [stored, length_map, length_range]
  · intro position inside _
    have group : position / 4 < 16 := by omega
    have load0 : ∀ r, vld3 data 0 r ⟨position / 4, group⟩ = data.getD (3 * (position / 4) + r) 0 := by
      intro r
      simp only [vld3, Nat.zero_add]
    rcases neon_sextet _ _
      _ with ⟨zero, one, two, three⟩
    rw [getElem_map, getElem_range, groupSymbol]
    simp only [neonBlock, vst4, List.getElem_ofFn]
    have place : position % 4 = 0 ∨ position % 4 = 1 ∨ position % 4 = 2 ∨ position % 4 = 3 := by omega
    rcases place with here | here | here | here
    all_goals
      simp only [here]
      apply neon_lookup _ group
      simp only [Simd.or, Simd.and, vshr, vshl, splat, load0, Nat.add_zero]
      assumption

theorem avx2_exact :
    base64EncodeIntoAvx2 alphabet pad data (encodeGroups alphabet pad data).length =
      some (encodeGroups alphabet pad data) := by
  apply BlockKernel.run_eq
  · intro data enough
    have block : List.ofFn (avx2Block alphabet data) = (List.range 32).map (groupSymbol alphabet data) :=
      ofFn_eq_map_range _ _ (avx2_lane _ _)
    have long : 3 * 8 ≤ data.length := Nat.le_trans (by decide : 3 * 8 ≤ 28) enough
    exact (encodeGroups_block _ _ 8 _ long).trans (by rw [← block]; rfl)
  · intro data
    exact length_ofFn
  · exact scalar_exact alphabet pad

theorem neon_exact :
    base64EncodeIntoNeon alphabet pad data (encodeGroups alphabet pad data).length =
      some (encodeGroups alphabet pad data) := by
  apply BlockKernel.run_eq
  · intro data enough
    exact (encodeGroups_block _ _ 16 _ enough).trans (by rw [← neon_block]; rfl)
  · intro data
    exact length_ofFn
  · exact scalar_exact alphabet pad

theorem encodeInto_exact (target : Target) (alphabet : Alphabet) (pad : Bool) (data : Bytes) :
    base64EncodeInto target alphabet pad data (base64EncodedLen data.length pad) =
      some (encodeGroups alphabet pad data) := by
  have size := encodeGroups_length alphabet pad data
  have scalar := scalar_exact alphabet pad data
  have avx2 := avx2_exact alphabet pad data
  have neon := neon_exact alphabet pad data
  rw [size] at scalar avx2 neon
  simp only [base64EncodeInto, ne_eq, not_true_eq_false, ↓reduceIte]
  cases target with
  | x86 detected =>
    dsimp only
    split <;> assumption
  | aarch64 =>
    dsimp only
    split <;> assumption
  | other => exact scalar

end Align.Base64
