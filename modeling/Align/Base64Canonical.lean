import Align.Base64Blocks
import Align.Hex

/-! The decoder accepts exactly the encodings: a text decodes to some bytes if
and only if it is their encoding in the chosen alphabet, with or without its
padding. Completeness runs along the encoder's groups of three bytes, soundness
along the decoder's quanta of four symbols. -/
namespace Align.Base64
open Simd Transcode List

def tableValue (alphabet : Alphabet) (byte : UInt8) : UInt8 :=
  (base64DecodeTable alphabet).getD byte.toNat 0xFF

theorem symbol_mem (alphabet : Alphabet) (inside : i < 64) :
    alphabet.symbol i ∈ alphabet.symbols := by
  have bound : i < alphabet.symbols.length := by rw [alphabet.size]; exact inside
  rw [Alphabet.symbol, getD_eq_getElem _ _ bound]
  exact getElem_mem bound

variable {alphabet : Alphabet}

theorem symbol_injective (first : i < 64) (second : j < 64)
    (same : alphabet.symbol i = alphabet.symbol j) : i = j := by
  have low : i < alphabet.symbols.length := by rw [alphabet.size]; exact first
  have high : j < alphabet.symbols.length := by rw [alphabet.size]; exact second
  rw [Alphabet.symbol, Alphabet.symbol, getD_eq_getElem _ _ low, getD_eq_getElem _ _ high] at same
  exact (alphabet.distinct.getElem_inj_iff).mp same

theorem tableValue_symbol (alphabet : Alphabet) (inside : i < 64) :
    tableValue alphabet (alphabet.symbol i) = UInt8.ofNat i :=
  reverseTable_symbol _ inside fun _ below same =>
    symbol_injective below inside same

theorem tableValue_toNat (alphabet : Alphabet) (inside : i < 64) :
    (tableValue alphabet (alphabet.symbol i)).toNat = i := by
  rw [tableValue_symbol _ inside, UInt8.toNat_ofNat']
  omega

theorem tableValue_found (found : tableValue alphabet byte ≠ 0xFF) :
    (tableValue alphabet byte).toNat < 64 ∧
      alphabet.symbol (tableValue alphabet byte).toNat = byte := by
  rcases reverseTable_found found with ⟨i, inside, same, entry⟩
  have value : (tableValue alphabet byte).toNat = i := by
    rw [← same]
    exact tableValue_toNat _ inside
  rw [value]
  exact ⟨inside, same⟩

variable {x y : UInt8}

theorem or_small (first : x.toNat < 64) (second : y.toNat < 64) :
    (x ||| y).toNat < 64 := by
  exact Nat.or_lt_two_pow (n := 6) first second

theorem small_valid (x : UInt8) (small : x.toNat < 64) : x ≠ 0xFF := by
  intro same
  rw [same] at small
  exact absurd small (by decide)

theorem quantum_bytes (w x y z : UInt8) (first : w.toNat < 64) (second : x.toNat < 64)
    (third : y.toNat < 64) (fourth : z.toNat < 64) :
    (w <<< 2 ||| x >>> 4).toNat = w.toNat * 4 + x.toNat / 16 ∧
      (x <<< 4 ||| y >>> 2).toNat = x.toNat % 16 * 16 + y.toNat / 4 ∧
      (y <<< 6 ||| z).toNat = y.toNat % 4 * 64 + z.toNat := by
  have top : (x >>> 4).toNat = x.toNat / 16 := shiftRight_toNat x (by decide)
  have middle : (y >>> 2).toNat = y.toNat / 4 := shiftRight_toNat y (by decide)
  have one := shiftLeft_or w 2 (by decide) (by rw [top]; omega)
  have two := shiftLeft_or x 4 (by decide) (by rw [middle]; omega)
  have three := shiftLeft_or y 6 (by decide) fourth
  rw [top, Nat.mod_eq_of_lt (Nat.lt_of_lt_of_le first (by decide))] at one
  rw [middle] at two
  exact ⟨one, two, three⟩

theorem quantum_sextets (w x y z : UInt8) (first : w.toNat < 64) (second : x.toNat < 64)
    (third : y.toNat < 64) (fourth : z.toNat < 64) (j : Nat) (place : j < 4) :
    sextet (w <<< 2 ||| x >>> 4) (x <<< 4 ||| y >>> 2) (y <<< 6 ||| z) j =
      [w.toNat, x.toNat, y.toNat, z.toNat].getD j 0 := by
  rcases quantum_bytes w x y z first second third fourth with ⟨one, two, three⟩
  match j, place with
  | 0, _ => simp only [sextet, one, getD_cons_zero]; omega
  | 1, _ => simp only [sextet, one, two, getD_cons_succ, getD_cons_zero]; omega
  | 2, _ => simp only [sextet, two, three, getD_cons_succ, getD_cons_zero]; omega
  | 3, _ =>
    change (y <<< 6 ||| z).toNat % 64 = z.toNat
    omega

variable {b : UInt8}

theorem quantum_recover {a c w z : UInt8} (first : w.toNat = sextet a b c 0)
    (second : x.toNat = sextet a b c 1) (third : y.toNat = sextet a b c 2) (fourth : z.toNat = sextet a b c 3) :
    w <<< 2 ||| x >>> 4 = a ∧ x <<< 4 ||| y >>> 2 = b ∧ y <<< 6 ||| z = c := by
  have small : ∀ j, sextet a b c j < 64 := sextet_lt a b c
  rcases quantum_bytes w x y z (by rw [first]; exact small 0) (by rw [second]; exact small 1)
    (by rw [third]; exact small 2) (by rw [fourth]; exact small 3) with ⟨one, two, three⟩
  have bounds : a.toNat < 256 ∧ b.toNat < 256 ∧ c.toNat < 256 :=
    ⟨a.toNat_lt, b.toNat_lt, c.toNat_lt⟩
  simp only [first, second, third, fourth, sextet] at one two three
  refine ⟨UInt8.toNat_inj.mp ?_, UInt8.toNat_inj.mp ?_, UInt8.toNat_inj.mp ?_⟩
  · omega
  · omega
  · omega

def decodeContent (value : UInt8 → UInt8) (content : Bytes) : Option Bytes :=
  match decodeTail value (content.drop (content.length / 4 * 4)) with
  | none => none
  | some tail => (decodeQuanta value content).map (· ++ tail)

theorem decodeContent_cons (value : UInt8 → UInt8) (a b c d : UInt8) (rest : Bytes) :
    decodeContent value (a :: b :: c :: d :: rest) =
      if value a ||| value b ||| value c ||| value d = 0xFF then none
      else (decodeContent value rest).map
        ([value a <<< 2 ||| value b >>> 4, value b <<< 4 ||| value c >>> 2,
          value c <<< 6 ||| value d] ++ ·) := by
  have count : (a :: b :: c :: d :: rest).length / 4 * 4 = rest.length / 4 * 4 + 4 := by
    simp only [length_cons]
    omega
  have dropped : (a :: b :: c :: d :: rest).drop (rest.length / 4 * 4 + 4) =
    rest.drop (rest.length / 4 * 4) := rfl
  simp only [decodeContent, count, dropped, decodeQuanta]
  by_cases invalid : value a ||| value b ||| value c ||| value d = 0xFF
  · simp only [invalid, ↓reduceIte]
    cases decodeTail value (rest.drop (rest.length / 4 * 4)) <;> rfl
  · simp only [invalid, ↓reduceIte]
    cases decodeTail value (rest.drop (rest.length / 4 * 4)) <;> cases decodeQuanta value rest <;> rfl

variable {content : Bytes}

theorem decodeContent_short (value : UInt8 → UInt8) (short : content.length < 4) :
    decodeContent value content = decodeTail value content := by
  have none : content.length / 4 * 4 = 0 := by omega
  have quanta : decodeQuanta value content = some [] := by
    match content with
    | [] | [_] | [_, _] | [_, _, _] => rfl
    | _ :: _ :: _ :: _ :: _ => simp only [length_cons] at short; omega
  rw [decodeContent, none, drop_zero, quanta]
  cases decodeTail value content <;> rfl

theorem decodeContent_complete (alphabet : Alphabet) (data : Bytes) :
    decodeContent (tableValue alphabet) (encodeGroups alphabet false data) = some data := by
  have read : ∀ a b c j, (tableValue alphabet (alphabet.symbol (sextet a b c j))).toNat =
    sextet a b c j := fun a b c j => tableValue_toNat _ (sextet_lt a b c j)
  have small : ∀ a b c j, (tableValue alphabet (alphabet.symbol (sextet a b c j))).toNat < 64 := by
    intro a b c j
    rw [read]
    exact sextet_lt a b c j
  match data with
  | a :: b :: c :: rest =>
    rcases quantum_recover (read a b c 0) (read a b c 1) (read a b c 2)
      (read a b c 3) with ⟨one, two, three⟩
    have valid := small_valid _ (or_small (or_small (or_small (small a b c 0)
      (small a b c 1)) (small a b c 2)) (small a b c 3))
    have rest_ok := decodeContent_complete alphabet rest
    rw [encodeGroups_cons, decodeContent_cons, if_neg valid, one, two, three, rest_ok]
    rfl
  | [a] =>
    rcases quantum_recover (read a 0 0 0) (read a 0 0 1) (read a 0 0 2) (read a 0 0 3) with ⟨one, -, -⟩
    have valid := small_valid _ (or_small (small a 0 0 0) (small a 0 0 1))
    have clear : tableValue alphabet (alphabet.symbol (sextet a 0 0 1)) &&& 0x0F = 0 := by
      apply UInt8.toNat_inj.mp
      rw [(masks _).2.2.2.1, read]
      change (a.toNat % 4 * 16 + 0 / 16) % 16 = 0
      omega
    rw [encodeGroups_one, decodeContent_short _ (by simp)]
    change decodeTail _ [_, _] = _
    simp only [decodeTail, valid, clear, one, false_or, not_true_eq_false, ne_eq, ↓reduceIte]
  | [a, b] =>
    rcases quantum_recover (read a b 0 0) (read a b 0 1) (read a b 0 2) (read a b 0 3) with ⟨one, two, -⟩
    have valid := small_valid _ (or_small (or_small (small a b 0 0) (small a b 0 1)) (small a b 0 2))
    have clear : tableValue alphabet (alphabet.symbol (sextet a b 0 2)) &&& 0x03 = 0 := by
      apply UInt8.toNat_inj.mp
      rw [(masks _).2.2.2.2.1, read]
      change (b.toNat % 16 * 4 + 0 / 64) % 4 = 0
      omega
    rw [encodeGroups_two, decodeContent_short _ (by simp)]
    change decodeTail _ [_, _, _] = _
    simp only [decodeTail, valid, clear, one, two, false_or, not_true_eq_false, ne_eq, ↓reduceIte]
  | [] =>
    rw [encodeGroups, decodeContent_short _ (by simp)]
    rfl

theorem or_valid (valid : x ||| y ≠ 0xFF) : x ≠ 0xFF ∧ y ≠ 0xFF := by
  constructor
  · intro same
    exact valid (same ▸ ff_or y)
  · intro same
    exact valid (same ▸ or_ff x)

theorem last_found (valid : x ||| tableValue alphabet b ≠ 0xFF) :
    x ≠ 0xFF ∧ (tableValue alphabet b).toNat < 64 ∧
      alphabet.symbol (tableValue alphabet b).toNat = b :=
  ⟨(or_valid valid).1, tableValue_found (or_valid valid).2⟩

theorem decodeContent_sound {content data : Bytes}
    (decoded : decodeContent (tableValue alphabet) content = some data) :
    content = encodeGroups alphabet false data := by
  match content with
  | a :: b :: c :: d :: rest =>
    simp only [decodeContent_cons, Option.ite_none_left_eq_some, Option.map_eq_some_iff] at decoded
    obtain ⟨valid, tail, remaining, rfl⟩ := decoded
    obtain ⟨abc, d_small, d_symbol⟩ := last_found valid
    obtain ⟨ab, c_small, c_symbol⟩ := last_found abc
    obtain ⟨a_ok, b_small, b_symbol⟩ := last_found ab
    obtain ⟨a_small, a_symbol⟩ := tableValue_found a_ok
    have later := decodeContent_sound remaining
    have index := quantum_sextets _ _ _ _ a_small b_small c_small d_small
    change _ = encodeGroups alphabet false (_ :: _ :: _ :: tail)
    rw [encodeGroups_cons, ← later, index 0 (by decide), index 1 (by decide), index 2 (by decide), index 3 (by decide)]
    simp only [getD_cons_zero, getD_cons_succ, a_symbol, b_symbol, c_symbol, d_symbol]
  | [a, b, c] =>
    rw [decodeContent_short _ (by simp)] at decoded
    simp only [decodeTail] at decoded
    split_ifs at decoded with invalid
    rcases not_or.mp invalid with ⟨abc, clear⟩
    obtain ⟨ab, c_small, c_symbol⟩ := last_found abc
    obtain ⟨a_ok, b_small, b_symbol⟩ := last_found ab
    obtain ⟨a_small, a_symbol⟩ := tableValue_found a_ok
    -- The tail is a quantum whose last value and unused bits are zero.
    have index := quantum_sextets _ _ _ 0 a_small b_small c_small (by decide)
    have bits : (tableValue alphabet c).toNat % 4 = 0 := by
      rw [← (masks _).2.2.2.2.1, not_not.mp clear]
      rfl
    have zero : tableValue alphabet c <<< 6 ||| 0 = 0 := by
      apply UInt8.toNat_inj.mp
      rw [(quantum_bytes _ _ _ 0 a_small b_small c_small (by decide)).2.2, bits]
      rfl
    rw [zero] at index
    cases decoded
    rw [encodeGroups_two, index 0 (by decide), index 1 (by decide), index 2 (by decide)]
    simp [a_symbol, b_symbol, c_symbol]
  | [a, b] =>
    rw [decodeContent_short _ (by simp)] at decoded
    simp only [decodeTail] at decoded
    split_ifs at decoded with invalid
    rcases not_or.mp invalid with ⟨ab, clear⟩
    obtain ⟨a_ok, b_small, b_symbol⟩ := last_found ab
    obtain ⟨a_small, a_symbol⟩ := tableValue_found a_ok
    have index := quantum_sextets _ _ 0 0 a_small b_small (by decide) (by decide)
    have bits : (tableValue alphabet b).toNat % 16 = 0 := by
      rw [← (masks _).2.2.2.1, not_not.mp clear]
      rfl
    have zero : tableValue alphabet b <<< 4 ||| (0 : UInt8) >>> 2 = 0 := by
      apply UInt8.toNat_inj.mp
      rw [(quantum_bytes _ _ 0 0 a_small b_small (by decide) (by decide)).2.1, bits]
      rfl
    rw [zero, (by decide : (0 : UInt8) <<< 6 ||| 0 = 0)] at index
    cases decoded
    rw [encodeGroups_one, index 0 (by decide), index 1 (by decide)]
    simp [a_symbol, b_symbol]
  | [a] =>
    rw [decodeContent_short _ (by simp)] at decoded
    cases decoded
  | [] =>
    cases decoded
    rfl

/-- The pads that complete the last group. -/
def padCount (inputLen : Nat) : Nat := (3 - inputLen % 3) % 3

theorem encodeGroups_padded (alphabet : Alphabet) (data : Bytes) :
    encodeGroups alphabet true data =
      encodeGroups alphabet false data ++ List.replicate (padCount data.length) padByte := by
  match data with
  | a :: b :: c :: rest =>
    have count : padCount (a :: b :: c :: rest).length = padCount rest.length := by
      simp only [padCount, length_cons]
      omega
    rw [encodeGroups_cons, encodeGroups_cons, encodeGroups_padded _ _, count]
    rfl
  | [a] => rfl
  | [a, b] => rfl
  | [] => rfl

theorem unpadded_length :
    base64EncodedLen inputLen false % 4 ≠ 1 ∧
      (base64EncodedLen inputLen false + padCount inputLen) % 4 = 0 ∧ padCount inputLen ≤ 2 ∧
      ∀ pads, 0 < pads → pads ≤ 2 → (base64EncodedLen inputLen false + pads) % 4 = 0 →
        pads = padCount inputLen := by
  have cases3 : inputLen % 3 = 0 ∨ inputLen % 3 = 1 ∨ inputLen % 3 = 2 := by omega
  rcases cases3 with tail | tail | tail
  all_goals
    simp only [base64EncodedLen, padCount, tail]
    refine ⟨by omega, by omega, by omega, ?_⟩
    intro pads positive few whole
    omega

theorem encodeGroups_symbols (member : byte ∈ encodeGroups alphabet false data) : byte ∈ alphabet.symbols := by
  have symbol : ∀ a b c j, alphabet.symbol (sextet a b c j) ∈ alphabet.symbols :=
    fun a b c j => symbol_mem _ (sextet_lt a b c j)
  match data with
  | a :: b :: c :: rest =>
    rw [encodeGroups_cons] at member
    simp only [mem_cons] at member
    rcases member with rfl | rfl | rfl | rfl | later
    · exact symbol a b c 0
    · exact symbol a b c 1
    · exact symbol a b c 2
    · exact symbol a b c 3
    · exact encodeGroups_symbols later
  | [a] =>
    simp only [encodeGroups_one, Bool.false_eq_true, ↓reduceIte, append_nil, mem_cons, not_mem_nil,
      or_false] at member
    rcases member with rfl | rfl
    · exact symbol a 0 0 0
    · exact symbol a 0 0 1
  | [a, b] =>
    simp only [encodeGroups_two, Bool.false_eq_true, ↓reduceIte, append_nil, mem_cons, not_mem_nil,
      or_false] at member
    rcases member with rfl | rfl | rfl
    · exact symbol a b 0 0
    · exact symbol a b 0 1
    · exact symbol a b 0 2
  | [] => cases member

theorem splitPads_sound (pads : Nat) (inside : start ≤ input.length)
    (few : pads ≤ 2) (split : splitPads input start pads = some (stop, total)) :
    stop ≤ start ∧ total = pads + (start - stop) ∧ total ≤ 2 ∧
      input.take start = input.take stop ++ List.replicate (start - stop) padByte := by
  induction start generalizing pads with
  | zero =>
    cases split
    exact ⟨Nat.le_refl _, rfl, few, by simp⟩
  | succ start ih =>
    unfold splitPads at split
    by_cases padded : input.getD start 0 = padByte
    · by_cases full : pads = 2
      · simp only [padded, full, ↓reduceIte] at split
        cases split
      simp only [padded, full, ↓reduceIte] at split
      rcases ih (pads + 1) (by omega) (by omega) split with ⟨below, count, bound, taken⟩
      have here : input.take (start + 1) = input.take start ++ [padByte] := by
        rw [getD_eq_getElem _ _ inside] at padded
        rw [take_succ_eq_append_getElem inside, padded]
      have one : start + 1 - stop = start - stop + 1 := by omega
      refine ⟨by omega, by omega, bound, ?_⟩
      rw [here, taken, one, replicate_succ', append_assoc]
    · simp only [padded, ↓reduceIte, Option.some.injEq, Prod.mk.injEq] at split
      rcases split with ⟨rfl, rfl⟩
      exact ⟨Nat.le_refl _, by omega, few, by simp⟩

theorem splitPads_complete (content : Bytes) (clean : padByte ∉ content) (count pads : Nat)
    (inside : more ≤ count) (few : pads + more ≤ 2) :
    splitPads (content ++ List.replicate count padByte) (content.length + more) pads =
      some (content.length, pads + more) := by
  induction more generalizing pads with
  | zero =>
    cases size : content.length with
    | zero => rfl
    | succ last =>
      have bound : last < content.length := by omega
      have other : ¬ (content ++ List.replicate count padByte).getD last 0 = padByte := by
        rw [getD_append _ _ _ _ bound, getD_eq_getElem _ _ bound]
        intro same
        exact clean (same ▸ getElem_mem bound)
      simp only [splitPads, other, ↓reduceIte, Nat.add_zero]
  | succ more ih =>
    have here : (content ++ List.replicate count padByte).getD (content.length + more) 0 =
      padByte := by
      rw [getD_append_right _ _ _ _ (Nat.le_add_right _ _), Nat.add_sub_cancel_left,
        getD_replicate _ inside]
    have room : ¬ pads = 2 := by omega
    rw [← Nat.add_assoc]
    simp only [splitPads, here, room, ↓reduceIte]
    rw [ih (pads + 1) (by omega) (by omega)]
    congr 2
    omega

def decodeAlphabet (url : Bool) : Alphabet := if url then base64Url else base64Std

theorem base64DecodeImpl_eq (text : Bytes) (url : Bool) :
    base64DecodeImpl text url =
      if text.head?.any (fun byte => tableValue (decodeAlphabet url) byte == 0xFF) then none
      else match splitPads text text.length 0 with
        | none => none
        | some (stop, pads) =>
            if (text.take stop).length % 4 = 1 then none
            else if 0 < pads ∧ ((text.take stop).length + pads) % 4 ≠ 0 then none
            else decodeContent (tableValue (decodeAlphabet url)) (text.take stop) := rfl

theorem decode_split (clean : padByte ∉ content) (few : pads ≤ 2)
    (first : (content ++ List.replicate pads padByte).head?.any
      (fun byte => tableValue (decodeAlphabet url) byte == 0xFF) = false)
    (whole : content.length % 4 ≠ 1) (closed : 0 < pads → (content.length + pads) % 4 = 0) :
    base64DecodeImpl (content ++ List.replicate pads padByte) url =
      decodeContent (tableValue (decodeAlphabet url)) content := by
  have split := splitPads_complete _ clean pads 0 (Nat.le_refl _) (by omega)
  have size : (content ++ List.replicate pads padByte).length = content.length + pads := by simp
  have closed' : ¬ (0 < pads ∧ (content.length + pads) % 4 ≠ 0) := fun open_ =>
    open_.2 (closed open_.1)
  rw [Nat.zero_add] at split
  rw [base64DecodeImpl_eq, first, size, split]
  simp only [Bool.false_eq_true, take_left, whole, closed', ↓reduceIte]

theorem encodeGroups_head (alphabet : Alphabet) (pad : Bool) (data : Bytes) :
    (encodeGroups alphabet pad data).head?.any (fun byte => tableValue alphabet byte == 0xFF) =
      false := by
  have valid : ∀ a b c, (tableValue alphabet (alphabet.symbol (sextet a b c 0)) == 0xFF) = false := by
    intro a b c
    rw [beq_eq_false_iff_ne]
    apply small_valid
    rw [tableValue_toNat _ (sextet_lt a b c 0)]
    exact sextet_lt a b c 0
  match data with
  | a :: b :: c :: rest => exact encodeGroups_cons _ _ a b c _ ▸ valid a b c
  | [a] => exact encodeGroups_one _ _ a ▸ valid a 0 0
  | [a, b] => exact encodeGroups_two _ _ a b ▸ valid a b 0
  | [] => rfl

theorem decode_iff (text data : Bytes) (url : Bool) :
    base64DecodeImpl text url = some data ↔
      ∃ pad, text = encodeGroups (decodeAlphabet url) pad data := by
  constructor
  · intro decoded
    rw [base64DecodeImpl_eq] at decoded
    split at decoded
    · cases decoded
    rcases split : splitPads text text.length 0 with _ | ⟨stop, pads⟩
    · rw [split] at decoded
      cases decoded
    rcases splitPads_sound 0 (Nat.le_refl _) (by decide) split with
      ⟨below, count, few, taken⟩
    rw [take_length] at taken
    rw [Nat.zero_add] at count
    rw [split] at decoded
    simp only at decoded
    split_ifs at decoded with lone open_
    have content := decodeContent_sound decoded
    have rest : text = text.take stop ++ List.replicate pads padByte := by
      rw [count]
      exact taken
    rw [content, encodeGroups_length] at open_
    rw [content] at rest
    by_cases none : pads = 0
    · exact ⟨false, by rw [rest, none, replicate_zero, append_nil]⟩
    have closed : (base64EncodedLen data.length false + pads) % 4 = 0 := by
      by_contra nonzero
      exact open_ ⟨Nat.pos_of_ne_zero none, nonzero⟩
    have exact_count := (unpadded_length).2.2.2 pads (Nat.pos_of_ne_zero none) few closed
    exact ⟨true, by rw [encodeGroups_padded, ← exact_count]; exact rest⟩
  · rintro ⟨pad, rfl⟩
    have clean : padByte ∉ encodeGroups (decodeAlphabet url) false data := fun member =>
      (decodeAlphabet url).unpadded (encodeGroups_symbols member)
    rcases unpadded_length with ⟨lone, closed, few, -⟩
    rw [← encodeGroups_length _] at lone closed
    have first := encodeGroups_head (decodeAlphabet url) pad data
    rw [← decodeContent_complete _ _]
    cases pad with
    | true =>
      rw [encodeGroups_padded] at first ⊢
      exact decode_split clean few first lone fun _ => closed
    | false =>
      have bare := decode_split clean (by decide) (by simpa using first) lone
        fun positive => absurd positive (Nat.lt_irrefl 0)
      rwa [replicate_zero, append_nil] at bare

/-- Every target's encoder is undone by the decoder; the Base64 decoder accepts
a text exactly when it is the encoding of its result, padded or not; and the
vector encoders fill the destination with the scalar encoder's bytes. -/
theorem text_codecs_canonical :
    (∀ (target : Target) (x : Bytes),
      (base64Encode target x).bind (base64DecodeImpl · false) = some x ∧
        (base64urlEncode target x).bind (base64DecodeImpl · true) = some x ∧
        (Hex.hexEncode target x).bind Hex.hexDecodeImpl = some x) ∧
      (∀ (t x : Bytes) (url : Bool), base64DecodeImpl t url = some x ↔
        ∃ pad, base64EncodeIntoScalar (decodeAlphabet url) pad x
          (base64EncodedLen x.length pad) = some t) ∧
      (∀ (alphabet : Alphabet) (pad : Bool) (x : Bytes),
        ∃ text : Bytes, text.length = base64EncodedLen x.length pad ∧
          base64EncodeIntoScalar alphabet pad x text.length = some text ∧
          base64EncodeIntoAvx2 alphabet pad x text.length = some text ∧
          base64EncodeIntoNeon alphabet pad x text.length = some text) ∧
      ∀ x : Bytes, ∃ text : Bytes, text.length = x.length * 2 ∧
        Hex.hexEncodeIntoScalar x text.length = some text ∧
        Hex.hexEncodeIntoAvx2 x text.length = some text ∧
        Hex.hexEncodeIntoNeon x text.length = some text := by
  refine ⟨?_, ?_, ?_, ?_⟩
  · intro target x
    rw [base64Encode, encodeInto_exact, base64urlEncode, encodeInto_exact, Hex.hexEncode,
      Hex.encodeInto_exact]
    exact ⟨(decode_iff _ x false).mpr ⟨true, rfl⟩, (decode_iff _ x true).mpr ⟨false, rfl⟩,
      Hex.decode_encode x⟩
  · intro t x url
    rw [decode_iff]
    have scalar : ∀ pad, base64EncodeIntoScalar (decodeAlphabet url) pad x
      (base64EncodedLen x.length pad) = some (encodeGroups (decodeAlphabet url) pad x) := by
      intro pad
      rw [← encodeGroups_length (decodeAlphabet url)]
      exact scalar_exact (decodeAlphabet url) pad x
    constructor
    · rintro ⟨pad, rfl⟩
      exact ⟨pad, scalar pad⟩
    · rintro ⟨pad, encoded⟩
      exact ⟨pad, Option.some.inj (encoded.symm.trans (scalar pad))⟩
  · intro alphabet pad x
    exact ⟨encodeGroups alphabet pad x, encodeGroups_length alphabet pad x,
      scalar_exact alphabet pad x, avx2_exact alphabet pad x, neon_exact alphabet pad x⟩
  · intro x
    exact ⟨Hex.encodePairs x, Hex.encodePairs_length x, Hex.scalar_exact x, Hex.avx2_exact x,
      Hex.neon_exact x⟩

end Align.Base64
