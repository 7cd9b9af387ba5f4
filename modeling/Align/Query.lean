import Align.Segments
import Align.UrlEscape

/-! Parameters of a query string. A key is decoded while it is compared with the name,
one packed byte at a time; what the lookup finds is what decoding every key first would
find. -/
namespace Align.Query
open UrlEscape Segments List

def hexVal (b : UInt8) : Int :=
  let v : Int := b.toNat
  if v ≥ 48 ∧ v ≤ 57 then v - 48
  else if v ≥ 97 ∧ v ≤ 102 then v - 97 + 10
  else if v ≥ 65 ∧ v ≤ 70 then v - 65 + 10
  else -1

/-- The decoded byte and the advance, as `value * 8 + advance`; `-1` for a malformed escape. -/
def decodeAt (b : Bytes) (i : Nat) : Int :=
  let c : Int := (b.getD i 0).toNat
  if c = 43 then 32 * 8 + 1
  else if c = 37 then
    if i + 2 ≥ b.length then -1
    else
      let hi := hexVal (b.getD (i + 1) 0)
      let lo := hexVal (b.getD (i + 2) 0)
      if hi < 0 ∨ lo < 0 then -1 else (hi * 16 + lo) * 8 + 3
  else c * 8 + 1

/-- The comparison from position `i` of the key and `j` of the name. The fuel bounds the
turns; a key of `n` bytes takes at most `n + 1`. -/
def matchFrom (kb nb : Bytes) : Nat → Nat → Nat → Option Bool
  | 0, _, _ => none
  | fuel + 1, i, j =>
    if i ≥ kb.length then some (j ≥ nb.length)
    else if j ≥ nb.length then some false
    else
      let d := decodeAt kb i
      if d < 0 then some false
      else if d / 8 ≠ (nb.getD j 0).toNat then some false
      else matchFrom kb nb fuel (i + (d % 8).toNat) (j + 1)

def keyMatches (key name : Bytes) : Option Bool := matchFrom key name (key.length + 1) 0 0

/-- The first `mark` at or after `i`, or `stop`. -/
def scanTo (bytes : Bytes) (mark : UInt8) (stop : Nat) (i : Nat) : Nat :=
  if i ≥ stop then i else if bytes.getD i 0 = mark then i else scanTo bytes mark stop (i + 1)
termination_by stop - i

/-- The search from `start`: the value of the first pair whose key matches. -/
def searchFrom (query name : Bytes) : Nat → Nat → Option (Option Bytes)
  | 0, _ => none
  | fuel + 1, start =>
    if start > query.length then some none
    else
      let stop := scanTo query 38 query.length start
      let eq := scanTo query 61 stop start
      (keyMatches (slice query start eq) name).bind fun hit =>
        if hit then some (some (if eq ≥ stop then [] else slice query (eq + 1) stop))
        else searchFrom query name fuel (stop + 1)

def raw (query name : Bytes) : Option Bytes := (searchFrom query name (query.length + 2) 0).map (·.getD [])

def has (query name : Bytes) : Option Bool := (searchFrom query name (query.length + 2) 0).map (·.isSome)

def pairs (query : Bytes) : List Bytes := query.splitOn 38

def keyOf (pair : Bytes) : Bytes := pair.takeWhile (· ≠ 61)

def valueOf (pair : Bytes) : Bytes := (pair.dropWhile (· ≠ 61)).drop 1

def named (name pair : Bytes) : Bool := formDecodeImpl (keyOf pair) = some name

theorem hexVal_cases :
    hexVal b < 0 ∧ Hex.hexValue b = 0xFF ∨ hexVal b = (Hex.hexValue b).toNat ∧ (Hex.hexValue b).toNat < 16 := by
  have table : ∀ n < 256, hexVal (UInt8.ofNat n) < 0 ∧ Hex.hexValue (UInt8.ofNat n) = 0xFF ∨
      hexVal (UInt8.ofNat n) = (Hex.hexValue (UInt8.ofNat n)).toNat ∧ (Hex.hexValue (UInt8.ofNat n)).toNat < 16 := by
    decide +kernel
  have here := table b.toNat b.toNat_lt
  rwa [UInt8.ofNat_toNat] at here

theorem escape_cases :
    (hexVal high < 0 ∨ hexVal low < 0) ∧ percentEscapeByte high low = none ∨
    ∃ byte : UInt8, 0 ≤ hexVal high ∧ 0 ≤ hexVal low ∧ hexVal high * 16 + hexVal low = byte.toNat ∧
      percentEscapeByte high low = some byte := by
  have full : ∀ n < 256, 0xFF ||| UInt8.ofNat n = 0xFF ∧ UInt8.ofNat n ||| 0xFF = 0xFF := by decide +kernel
  rw [percentEscapeByte]
  rcases hexVal_cases with ⟨bad, value⟩ | ⟨digit, small⟩
  · have mixed := (full (Hex.hexValue low).toNat (UInt8.toNat_lt _)).1
    rw [UInt8.ofNat_toNat] at mixed
    exact Or.inl ⟨Or.inl bad, by rw [value, if_pos mixed]⟩
  rcases hexVal_cases with ⟨bad, value⟩ | ⟨digit', small'⟩
  · have mixed := (full (Hex.hexValue high).toNat (UInt8.toNat_lt _)).2
    rw [UInt8.ofNat_toNat] at mixed
    exact Or.inl ⟨Or.inr bad, by rw [value, if_pos mixed]⟩
  · have joined := Transcode.shiftLeft_or (Hex.hexValue high) 4 (by decide) small'
    rw [if_neg (Hex.digit_valid _ (Hex.or_digit small small')), digit, digit']
    refine Or.inr ⟨_, by omega, by omega, ?_, rfl⟩
    change _ = ((_ <<< UInt8.ofNat 4 ||| _).toNat : Int)
    omega

theorem decodeAt_cases (inside : i < kb.length) :
    decodeAt kb i < 0 ∧ decodeBytes true (kb.drop i) = none ∨
    ∃ (byte : UInt8) (width : Nat), 0 < width ∧ width < 8 ∧ decodeAt kb i = (byte.toNat * 8 + width : Nat) ∧
      decodeBytes true (kb.drop i) = (decodeBytes true (kb.drop (i + width))).map (byte :: ·) := by
  have cons (k : Nat) (within : k < kb.length) : kb.drop k = kb.getD k 0 :: kb.drop (k + 1) := by
    rw [getD_eq_getElem _ _ within, drop_eq_getElem_cons]
  rw [cons i inside, decodeAt]
  by_cases plus : kb.getD i 0 = 43
  · rw [plus]
    refine Or.inr ⟨32, 1, by omega, by omega, rfl, ?_⟩
    conv => lhs; unfold decodeBytes
    rfl
  by_cases percent : kb.getD i 0 = 37
  · rw [percent]
    simp only
    by_cases short : i + 2 ≥ kb.length
    · refine Or.inl ⟨by simp [short], ?_⟩
      have few : (kb.drop (i + 1)).length ≤ 1 := by
        rw [length_drop]
        omega
      generalize kb.drop (i + 1) = tail at few
      rcases tail with _ | ⟨_, _ | _⟩
      · rfl
      · rfl
      · simp at few
    · rw [cons (i + 1) (by omega), cons (i + 2) (by omega), decodeBytes]
      rcases escape_cases with ⟨bad, none⟩ | ⟨byte, high, low, value, some⟩
      · refine Or.inl ⟨?_, by rw [none]; rfl⟩
        rw [if_neg (by decide), if_pos (by decide), if_neg short, if_pos bad]
        decide
      · refine Or.inr ⟨byte, 3, by omega, by omega, ?_, by rw [some]; rfl⟩
        rw [if_neg (by decide), if_pos (by decide), if_neg short, if_neg (by omega), value]
        norm_cast
  · have ordinary : isSpecial true (kb.getD i 0) = false :=
      Bool.or_eq_false_iff.mpr ⟨beq_false_of_ne percent, beq_false_of_ne plus⟩
    rw [decodeBytes_ordinary _ _ ordinary]
    rw [← UInt8.toNat_inj] at plus percent
    refine Or.inr ⟨kb.getD i 0, 1, by omega, by omega, ?_, rfl⟩
    rw [if_neg (by norm_cast), if_neg (by norm_cast)]
    norm_cast

theorem matchFrom_eq (i j : Nat) (enough : kb.length - i < fuel) :
    matchFrom kb nb fuel i j = some (decide (decodeBytes true (kb.drop i) = some (nb.drop j))) := by
  induction fuel generalizing i j with
  | zero => omega
  | succ fuel ih =>
    rw [matchFrom]
    by_cases done : i ≥ kb.length
    · rw [if_pos done, drop_eq_nil_of_le done]
      simp [decodeBytes, eq_comm]
    rw [if_neg done]
    have step := decodeAt_cases (Nat.lt_of_not_ge done)
    by_cases spent : j ≥ nb.length
    · rw [if_pos spent, drop_eq_nil_of_le spent]
      rcases step with ⟨-, none⟩ | ⟨byte, width, -, -, -, rest⟩
      · rw [none]
        rfl
      · simp [rest]
    have name : nb.drop j = nb.getD j 0 :: nb.drop (j + 1) := by
      rw [getD_eq_getElem _ _ (Nat.lt_of_not_ge spent), drop_eq_getElem_cons]
    rw [if_neg spent, name]
    rcases step with ⟨bad, none⟩ | ⟨byte, width, positive, small, packed, rest⟩
    · rw [none]
      exact if_pos bad
    have value : decodeAt kb i / 8 = byte.toNat := by omega
    have advance : (decodeAt kb i % 8).toNat = width := by omega
    rw [if_neg (by omega), value, advance, rest]
    generalize nb.getD j 0 = c
    by_cases same : byte = c
    · rw [same, if_neg (not_not.mpr rfl), ih _ _ (by omega)]
      congr 2
      simp
    · rw [if_pos (by rw [ne_eq, Int.ofNat_inj, UInt8.toNat_inj]; exact same)]
      simp [same]

theorem keyMatches_eq (key name : Bytes) : keyMatches key name = some (decide (formDecodeImpl key = some name)) := by
  rw [keyMatches, matchFrom_eq 0 0 (by omega), formDecodeImpl_eq]
  rfl

theorem slice_split (low : i ≤ k) (high : k ≤ stop) :
    slice bytes i stop = slice bytes i k ++ slice bytes k stop := by
  rw [slice, slice, slice]
  have width : stop - i = (k - i) + (stop - k) := by omega
  have place : k = i + (k - i) := by omega
  rw [width, take_add, drop_drop, ← place]

theorem slice_cons (bytes : Bytes) (low : k < stop) (high : stop ≤ bytes.length) :
    slice bytes k stop = bytes.getD k 0 :: slice bytes (k + 1) stop := by
  have width : stop - k = stop - (k + 1) + 1 := by omega
  rw [slice, slice, width, drop_eq_getElem_cons (by omega), take_succ_cons, getD_eq_getElem _ _ (by omega)]

theorem scanTo_spec (low : i ≤ stop) (high : stop ≤ bytes.length) :
    i ≤ scanTo bytes mark stop i ∧ scanTo bytes mark stop i ≤ stop ∧
      mark ∉ slice bytes i (scanTo bytes mark stop i) ∧
      (scanTo bytes mark stop i < stop → bytes.getD (scanTo bytes mark stop i) 0 = mark) := by
  fun_induction scanTo bytes mark stop i with
  | case1 i past => exact ⟨Nat.le_refl _, low, by simp [slice], fun short => absurd past (by omega)⟩
  | case2 i inside here => exact ⟨Nat.le_refl _, low, by simp [slice], fun _ => here⟩
  | case3 i inside other ih =>
    obtain ⟨first, last, free, found⟩ := ih (by omega)
    refine ⟨by omega, last, ?_, found⟩
    rw [slice_cons _ (by omega) (by omega), mem_cons, not_or]
    exact ⟨Ne.symm other, free⟩

theorem pair_parts (low : i ≤ stop) (high : stop ≤ bytes.length) :
    keyOf (slice bytes i stop) = slice bytes i (scanTo bytes 61 stop i) ∧
      valueOf (slice bytes i stop) =
        if scanTo bytes 61 stop i ≥ stop then [] else slice bytes (scanTo bytes 61 stop i + 1) stop := by
  obtain ⟨first, last, free, found⟩ := scanTo_spec low high
  generalize scanTo bytes 61 stop i = eq at *
  have plain : ∀ b ∈ slice bytes i eq, decide (b ≠ 61) = true := by
    intro b member
    rw [decide_eq_true_eq]
    rintro rfl
    exact free member
  rw [keyOf, valueOf, slice_split first last, takeWhile_append_of_pos plain, dropWhile_append_of_pos plain]
  by_cases none : eq ≥ stop
  · have empty : slice bytes eq stop = [] := by
      rw [slice, Nat.sub_eq_zero_of_le none, take_zero]
    rw [empty, if_pos none]
    exact ⟨append_nil _, rfl⟩
  · rw [slice_cons _ (Nat.lt_of_not_ge none) high, found (Nat.lt_of_not_ge none), if_neg none]
    exact ⟨append_nil _, rfl⟩

theorem searchFrom_eq (query name : Bytes) (start : Nat) (enough : query.length + 1 - start < fuel) :
    searchFrom query name fuel start = some
      (if start > query.length then none
      else ((pairs (slice query start query.length)).find? (named name)).map valueOf) := by
  induction fuel generalizing start with
  | zero => omega
  | succ fuel ih =>
    rw [searchFrom]
    split_ifs with past
    · rfl
    obtain ⟨first, last, free, found⟩ := scanTo_spec (Nat.le_of_not_gt past) (Nat.le_refl _)
    dsimp only
    generalize scanTo query 38 query.length start = stop at *
    obtain ⟨key, value⟩ := pair_parts first last
    rw [← key, ← value, keyMatches_eq, Option.bind_some]
    have rest := ih (stop + 1) (by omega)
    -- a mark ends this pair, or it is the last one
    have split : pairs (slice query start query.length) = slice query start stop ::
        if stop + 1 > query.length then [] else pairs (slice query (stop + 1) query.length) := by
      rw [pairs, slice_split first last]
      by_cases mark : stop < query.length
      · rw [slice_cons _ mark (Nat.le_refl _), found mark, splitOn_append_cons_self_of_not_mem free,
          if_neg (by omega), pairs]
      · have empty : slice query stop query.length = [] := by
          rw [slice, Nat.sub_eq_zero_of_le (Nat.le_of_not_lt mark), take_zero]
        rw [empty, append_nil, splitOn_eq_singleton free, if_pos (by omega)]
    rw [split, find?_cons, named]
    by_cases hit : formDecodeImpl (keyOf (slice query start stop)) = some name
    · simp only [hit, decide_true, ↓reduceIte, Option.map_some]
    · simp only [hit, decide_false, Bool.false_eq_true, ↓reduceIte]
      rw [rest]
      split_ifs
      · rw [find?_nil, Option.map_none]
      · rfl

/-- `has` and `raw` find what decoding every key of the query would find: whether a key
decodes to the name, and the value of the first such pair. -/
theorem lookup_decodes (query name : Bytes) :
    has query name = some ((pairs query).any (named name)) ∧
    raw query name = some ((((pairs query).find? (named name)).map valueOf).getD []) := by
  have whole : slice query 0 query.length = query := take_length
  have found : searchFrom query name (query.length + 2) 0 = _ := searchFrom_eq query name 0 (by omega)
  rw [if_neg (Nat.not_lt_zero _), whole] at found
  have present : ((pairs query).find? (named name)).isSome = (pairs query).any (named name) := by
    rw [Bool.eq_iff_iff, find?_isSome, List.any_eq_true]
  rw [has, raw, found, Option.map_some, Option.map_some, Option.isSome_map, present]
  exact ⟨rfl, rfl⟩

theorem formPiece_unmarked : ∀ c ∈ formPiece b, c ≠ 38 ∧ c ≠ 61 := by
  have digit : ∀ n < 16, upperHex.getD n 0 ≠ 38 ∧ upperHex.getD n 0 ≠ 61 := by decide
  obtain ⟨-, -, high, low⟩ := Hex.nibble_values b
  rw [formPiece]
  split_ifs with space plain
  · rw [forall_mem_singleton]
    decide
  · rw [forall_mem_singleton]
    constructor <;> rintro rfl <;> exact absurd plain (by decide)
  · rw [escapeTriple, forall_mem_cons, forall_mem_cons, forall_mem_singleton]
    exact ⟨by decide, digit _ high, digit _ low⟩

theorem formEncode_some (wrote : formEncode x = some text) :
    formDecodeImpl text = some x ∧ ∀ c ∈ text, c ≠ 38 ∧ c ≠ 61 := by
  rw [formEncode_eq] at wrote
  split_ifs at wrote
  cases wrote
  rw [formDecodeImpl_eq]
  refine ⟨decode_pieces _ decode_formPiece _, fun c member => ?_⟩
  obtain ⟨b, -, inside⟩ := mem_flatMap.mp member
  exact formPiece_unmarked c inside

/-- A query joined from form-encoded fields gives the first value of a name back. -/
theorem written_fields_read (pair : Bytes × Bytes → Bytes) (name : Bytes) (some_ : fields ≠ [])
    (written : ∀ f ∈ fields, ∃ key value, formEncode f.1 = some key ∧ formEncode f.2 = some value ∧
      pair f = key ++ 61 :: value) :
    has ([38].intercalate (fields.map pair)) name = some (fields.find? (·.1 = name)).isSome ∧
      (raw ([38].intercalate (fields.map pair)) name).bind formDecodeImpl =
        some (((fields.find? (·.1 = name)).map Prod.snd).getD []) := by
  have parts : ∀ f ∈ fields, 38 ∉ pair f ∧ formDecodeImpl (keyOf (pair f)) = some f.1 ∧
      formDecodeImpl (valueOf (pair f)) = some f.2 := by
    intro f inside
    obtain ⟨key, value, keyed, valued, shape⟩ := written f inside
    obtain ⟨decoded, free⟩ := formEncode_some keyed
    obtain ⟨decoded', free'⟩ := formEncode_some valued
    have plain : ∀ c ∈ key, decide (c ≠ 61) = true := fun c member => decide_eq_true (free c member).2
    rw [shape, keyOf, valueOf, takeWhile_append_of_pos plain, dropWhile_append_of_pos plain]
    refine ⟨?_, by simpa using decoded, decoded'⟩
    simpa using ⟨fun bad => (free 38 bad).1 rfl, fun bad => (free' 38 bad).1 rfl⟩
  have cut : ([38].intercalate (fields.map pair)).splitOn 38 = fields.map pair :=
    splitOn_intercalate 38 (forall_mem_map.mpr fun f inside => (parts f inside).1) (mt map_eq_nil_iff.mp some_)
  have hits : fields.find? (named name ∘ pair) = fields.find? (·.1 = name) :=
    find?_congr fun f inside => by simp [named, parts f inside]
  generalize [38].intercalate (fields.map pair) = query at cut ⊢
  have found : searchFrom query name (query.length + 2) 0 = _ := searchFrom_eq query name 0 (by omega)
  rw [if_neg (Nat.not_lt_zero _), show slice query 0 query.length = query from take_length, pairs, cut,
    find?_map, hits] at found
  rw [has, raw, found]
  cases hit : fields.find? (·.1 = name) with
  | none => exact ⟨rfl, formDecodeImpl_eq []⟩
  | some f => exact ⟨rfl, (parts f (mem_of_find?_eq_some hit)).2.2⟩

theorem ampersand_read_back : (raw [97, 61, 37, 50, 54] [97]).bind formDecodeImpl = some [38] :=
  (written_fields_read (fun _ => [97, 61, 37, 50, 54]) [97] (cons_ne_nil ([97], [38]) [])
    (forall_mem_singleton.mpr ⟨[97], [37, 50, 54], by decide +kernel, by decide +kernel, rfl⟩)).2

end Align.Query
