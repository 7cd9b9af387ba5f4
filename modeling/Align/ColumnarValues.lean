import Align.ColumnarOpen

/-! Columns as values. Canonical column bytes and lists of values determine each
other, so that the encoder's staged columns and the validator's accepted ones
are the same batches read two ways. -/
namespace Align.Columnar
open Codec Segments List

/-- The values of one column; integers and floats as bit patterns. -/
inductive Values where
  | i64 (values : List UInt64)
  | f64 (values : List UInt64)
  | bool (values : List Bool)
  | str (cells : List Bytes)
deriving DecidableEq

def frameI64At (data : Bytes) (ordinal : Nat) : UInt64 :=
  UInt64.ofNat (ofLe (slice data (ordinal * 8) (ordinal * 8 + 8)))

def boolAt (data : Bytes) (ordinal : Nat) : Bool :=
  (data.getD (ordinal / 8) 0).toBitVec.getLsbD (ordinal % 8)

def frameStrOffset (offsets : Bytes) (ordinal : Nat) : Nat :=
  ofLe (slice offsets (ordinal * 4) (ordinal * 4 + 4))

def frameStrAt (offsets values : Bytes) (ordinal : Nat) : Bytes :=
  slice values (frameStrOffset offsets ordinal) (frameStrOffset offsets (ordinal + 1))

def exposedValues (rows : Nat) : CodecColumnData → Values
  | .i64 data => .i64 ((List.range rows).map (frameI64At data))
  | .f64 data => .f64 ((List.range rows).map (frameI64At data))
  | .bool data => .bool ((List.range rows).map (boolAt data))
  | .str offsets values => .str ((List.range rows).map (frameStrAt offsets values))

def wordBytes (values : List UInt64) : Bytes := values.flatMap fun v => toLe 8 v.toNat

theorem wordBytes_length (values : List UInt64) : (wordBytes values).length = values.length * 8 :=
  flatMap_length _ (fun _ => toLe_length 8 _) _

theorem read_words (values : List UInt64) :
    (List.range values.length).map (frameI64At (wordBytes values)) = values := by
  apply ext_getElem
  · rw [length_map, length_range]
  · intro i _ inside
    have here := at_flatMap (fun v : UInt64 => toLe 8 v.toNat) (fun v => toLe_length 8 _) _ i inside
    have small : values[i].toNat < 256 ^ 8 := values[i].toNat_lt
    rw [getElem_map, getElem_range, frameI64At, wordBytes, here.slice (by rw [toLe_length]),
      ofLe_toLe _ small, UInt64.ofNat_toNat]

theorem words_of_bytes {width count : Nat} (size : data.length = count * width) :
    ((List.range count).flatMap fun i =>
      toLe width (ofLe (slice data (i * width) (i * width + width)))) = data := by
  refine Eq.trans (flatMap_congr ?_) (blocks_eq _ size).symm
  intro i member
  have inside : i * width + width ≤ data.length := by
    have below : (i + 1) * width ≤ count * width :=
      Nat.mul_le_mul_right width (mem_range.mp member)
    rw [Nat.succ_mul] at below
    omega
  have bytes := toLe_ofLe (slice data (i * width) (i * width + width))
  rwa [slice_width inside] at bytes

theorem words_read (size : data.length = rows * 8) :
    wordBytes ((List.range rows).map (frameI64At data)) = data := by
  rw [wordBytes, flatMap_map]
  refine Eq.trans (flatMap_congr ?_) (words_of_bytes size)
  intro i member
  have inside : i * 8 + 8 ≤ data.length := by
    have := mem_range.mp member
    omega
  have bound := ofLe_lt (slice data (i * 8) (i * 8 + 8))
  rw [slice_width inside] at bound
  exact congrArg (toLe 8) (Nat.mod_eq_of_lt bound)

theorem boolAt_bit (data : Bytes) (j : Nat) (small : k < 8) :
    boolAt data (8 * j + k) = (data.getD j 0).toBitVec.getLsbD k := by
  have byte : (8 * j + k) / 8 = j := by omega
  have place : (8 * j + k) % 8 = k := by omega
  rw [boolAt, byte, place]

theorem bits_ext (size : first.length = second.length)
    (same : ∀ i, boolAt first i = boolAt second i) : first = second := by
  apply ext_getElem size
  intro j inside inside'
  apply UInt8.toBitVec_inj.mp
  apply BitVec.eq_of_getLsbD_eq
  intro k small
  have here := same (8 * j + k)
  rwa [boolAt_bit _ _ small, boolAt_bit _ _ small, getD_eq_getElem _ _ inside,
    getD_eq_getElem _ _ inside'] at here

theorem boolAt_zeros (count i : Nat) : boolAt (zeros count) i = false := by
  have zero : (zeros count).getD (i / 8) 0 = 0 := by
    rw [getD_eq_getElem?_getD, zeros, getElem?_replicate]
    split <;> rfl
  rw [boolAt, zero]
  exact BitVec.getLsbD_zero

/-- One turn of the loop. -/
def setBit (output : Bytes) (value : UInt8) (index : Nat) : Bytes :=
  output.set (index / 8) (output.getD (index / 8) 0 |||
    (if value ≠ 0 then 1 else 0) <<< UInt8.ofNat (index % 8))

theorem boolAt_set (value : UInt8) (i : Nat) (inside : index / 8 < output.length)
    (clear : boolAt output index = false) :
    boolAt (setBit output value index) i =
      if i = index then decide (value ≠ 0) else boolAt output i := by
  have table : ∀ bit : Prop, ∀ [Decidable bit], ∀ shift < 8, ∀ k < 8,
    ((if bit then 1 else 0 : UInt8) <<< UInt8.ofNat shift).toBitVec.getLsbD k =
      (decide (k = shift) && decide bit) := by
    intro bit _
    by_cases set : bit
    · simp only [set]
      decide
    · simp only [set]
      decide
  by_cases here : i / 8 = index / 8
  · rw [boolAt, setBit, getD_eq_getElem?_getD, here, getElem?_set_self inside, Option.getD_some,
      UInt8.toBitVec_or, BitVec.getLsbD_or,
      table _ _ (Nat.mod_lt _ (by decide)) _ (Nat.mod_lt _ (by decide))]
    by_cases same : i = index
    · subst same
      rw [boolAt] at clear
      rw [clear, decide_eq_true rfl, Bool.true_and, Bool.false_or, if_pos rfl]
    · have other : i % 8 ≠ index % 8 := by omega
      simp only [other, decide_false, Bool.false_and, Bool.or_false, same, ↓reduceIte]
      rw [boolAt, here]
  · have other : i ≠ index := fun same => here (by rw [same])
    rw [if_neg other, boolAt, boolAt, setBit, getD_eq_getElem?_getD,
      getElem?_set_ne (fun same => here same.symm), ← getD_eq_getElem?_getD]

theorem packBools_bits (byteLen : Nat) (values : Bytes) (room : values.length ≤ byteLen * 8) :
    (packBools byteLen values).length = byteLen ∧
      ∀ i, boolAt (packBools byteLen values) i = decide (values.getD i 0 ≠ 0) := by
  have run : ∀ (items : Bytes) (start : Nat) (output : Bytes), output.length = byteLen →
    start + items.length ≤ byteLen * 8 → (∀ i, start ≤ i → boolAt output i = false) →
    ((items.zipIdx start).foldl (fun output entry => setBit output entry.1 entry.2) output).length = byteLen ∧
      ∀ i, boolAt ((items.zipIdx start).foldl (fun output entry => setBit output entry.1 entry.2) output) i =
        if start ≤ i then decide (items.getD (i - start) 0 ≠ 0) else boolAt output i := by
    intro items
    induction items with
    | nil =>
      intro start output size _ clear
      refine ⟨size, ?_⟩
      intro i
      split_ifs with later
      · exact clear i later
      · rfl
    | cons value rest ih =>
      intro start output size room clear
      rw [length_cons] at room
      have inside : start / 8 < output.length := by omega
      have bit := fun i => boolAt_set value i inside (clear start (Nat.le_refl _))
      have next := ih (start + 1) (setBit output value start) (by rw [setBit, length_set, size])
        (by omega) (by
          intro i later
          rw [bit, if_neg (by omega)]
          exact clear i (by omega))
      rw [zipIdx_cons, foldl_cons]
      refine ⟨next.1, ?_⟩
      intro i
      rw [next.2 i]
      by_cases later : start + 1 ≤ i
      · have shift : i - start = i - (start + 1) + 1 := by omega
        rw [if_pos later, if_pos (by omega), shift]
        rfl
      rw [if_neg later, bit]
      by_cases here : i = start
      · rw [if_pos here, if_pos (by omega), here, Nat.sub_self]
        rfl
      · rw [if_neg here, if_neg (by omega)]
  have whole := run values 0 (zeros byteLen) (zeros_length _) (by omega)
    fun i _ => boolAt_zeros _ i
  refine ⟨whole.1, ?_⟩
  intro i
  have bit := whole.2 i
  exact bit

def boolByte (value : Bool) : UInt8 := if value then 1 else 0

theorem boolByte_ne_zero (value : Bool) : decide (boolByte value ≠ 0) = value := by
  cases value <;> rfl

theorem mask_clear (byte : UInt8) (small : used < 8) :
    byte &&& (0xFF : UInt8) <<< UInt8.ofNat used = 0 ↔
      ∀ k, used ≤ k → k < 8 → byte.toBitVec.getLsbD k = false := by
  have table : ∀ used < 8, ∀ k < 8,
    ((0xFF : UInt8) <<< UInt8.ofNat used).toBitVec.getLsbD k = decide (used ≤ k) := by
    decide
  constructor
  · intro zero k above inside
    have bit := congrArg (fun b : UInt8 => b.toBitVec.getLsbD k) zero
    simp only [UInt8.toBitVec_and, BitVec.getLsbD_and, table used small k inside] at bit
    rw [decide_eq_true above, Bool.and_true] at bit
    exact bit.trans BitVec.getLsbD_zero
  · intro clear
    apply UInt8.toBitVec_inj.mp
    apply BitVec.eq_of_getLsbD_eq
    intro k inside
    rw [UInt8.toBitVec_and, BitVec.getLsbD_and, table used small k inside]
    by_cases above : used ≤ k
    · rw [clear k above inside]
      exact BitVec.getLsbD_zero.symm
    · rw [decide_eq_false above, Bool.and_false]
      exact BitVec.getLsbD_zero.symm

theorem canonical_bits (size : data.length = (rows + 7) / 8) :
    CanonicalData rows (.bool data) ↔ ∀ i, rows ≤ i → boolAt data i = false := by
  have outside : ∀ i, data.length ≤ i / 8 → boolAt data i = false := by
    intro i above
    rw [boolAt, getD_eq_default _ _ above]
    exact BitVec.getLsbD_zero
  constructor
  · rintro ⟨_, tail⟩ i past
    by_cases above : data.length ≤ i / 8
    · exact outside i above
    have ragged : rows % 8 ≠ 0 := by omega
    have last : i / 8 = data.length - 1 := by omega
    have clear := (mask_clear _ (Nat.mod_lt rows (by decide))).mp (tail ragged)
    rw [boolAt, last]
    exact clear _ (by omega) (Nat.mod_lt _ (by decide))
  · intro clear
    refine ⟨size, ?_⟩
    intro ragged
    apply (mask_clear _ (Nat.mod_lt rows (by decide))).mpr
    intro k above inside
    have bit := clear (8 * (data.length - 1) + k) (by omega)
    rwa [boolAt_bit _ _ inside] at bit

theorem packed_canonical (values : Bytes) :
    CanonicalData values.length (.bool (packBools ((values.length + 7) / 8) values)) ∧
      (List.range values.length).map (boolAt (packBools ((values.length + 7) / 8) values)) =
        values.map fun v => decide (v ≠ 0) := by
  rcases packBools_bits ((values.length + 7) / 8) values (by omega) with ⟨size, bits⟩
  constructor
  · apply (canonical_bits size).mpr
    intro i past
    rw [bits, getD_eq_default _ _ past]
    rfl
  · apply ext_getElem
    · rw [length_map, length_range, length_map]
    · intro i inside inside'
      have bound : i < values.length := by
        rw [length_map, length_range] at inside
        exact inside
      rw [getElem_map, getElem_range, bits, getElem_map, getD_eq_getElem _ _ bound]

theorem canonical_packed (canonical : CanonicalData rows (.bool data)) :
    packBools ((rows + 7) / 8) ((List.range rows).map fun i => boolByte (boolAt data i)) = data := by
  have size : data.length = (rows + 7) / 8 := canonical.1
  have clear := (canonical_bits size).mp canonical
  rcases packBools_bits ((rows + 7) / 8) ((List.range rows).map fun i => boolByte (boolAt data i))
    (by rw [length_map, length_range]; omega) with ⟨packed, bits⟩
  apply bits_ext (by rw [packed, size])
  intro i
  rw [bits]
  by_cases inside : i < rows
  · have here : ((List.range rows).map fun i => boolByte (boolAt data i)).getD i 0 =
      boolByte (boolAt data i) := by
      rw [getD_eq_getElem _ _ (by rw [length_map, length_range]; exact inside),
        getElem_map, getElem_range]
    rw [here, boolByte_ne_zero]
  · rw [clear i (by omega), getD_eq_default _ _ (by
      rw [length_map, length_range]
      omega)]
    rfl

/-- The running lengths of the cells, from `start`. -/
def offsetsFrom (start : Nat) : List Bytes → List Nat
  | [] => []
  | cell :: rest => (start + cell.length) :: offsetsFrom (start + cell.length) rest

def offsetBytes (offsets : List Nat) : Bytes := offsets.flatMap (toLe 4)

def textOffsets (cells : List Bytes) : Bytes := offsetBytes (0 :: offsetsFrom 0 cells)

theorem offsetBytes_length (offsets : List Nat) : (offsetBytes offsets).length = offsets.length * 4 :=
  flatMap_length _ (toLe_length 4) _

theorem readU32_offset (small : ∀ n ∈ offsets, n < 2 ^ 32) (inside : i < offsets.length) :
    codecReadU32 (offsetBytes offsets) (i * 4) = some offsets[i] :=
  (codecReadWord_iff (by decide) _ _).mpr
    ⟨small _ (getElem_mem inside), at_flatMap _ (toLe_length 4) _ _ inside⟩

variable (start : Nat) (cells : List Bytes)

theorem offsetsFrom_length :
    (offsetsFrom start cells).length = cells.length := by
  induction cells generalizing start with
  | nil => rfl
  | cons cell rest ih => rw [offsetsFrom, length_cons, ih, length_cons]

theorem offsetsFrom_le :
    ∀ n ∈ offsetsFrom start cells, n ≤ start + cells.flatten.length := by
  induction cells generalizing start with
  | nil => exact fun n member => absurd member not_mem_nil
  | cons cell rest ih =>
    intro n member
    rw [flatten_cons, length_append]
    rcases mem_cons.mp member with rfl | tail
    · omega
    · have := ih (start + cell.length) n tail
      omega

/-- The loop over the offsets after the first one. -/
def offsetChain (values : Bytes) : List Nat → Nat → Option Nat
  | [], previous => some previous
  | value :: rest, previous =>
      if value < previous ∨ values.length < value then none
      else if isUtf8 (slice values previous value) = false then none
      else offsetChain values rest value

theorem offsetRun_eq (values : Bytes) (small : ∀ n ∈ offsets, n < 2 ^ 32)
    (left row previous : Nat) (later : 0 < row) (whole : row + left = offsets.length) :
    offsetRun (offsetBytes offsets) values left row previous =
      offsetChain values (offsets.drop row) previous := by
  induction left generalizing row previous with
  | zero =>
    rw [drop_eq_nil_of_le (by omega)]
    rfl
  | succ left ih =>
    have inside : row < offsets.length := by omega
    have notFirst : ¬ row = 0 := by omega
    rw [offsetRun, readU32_offset small inside, Option.bind_some, drop_eq_getElem_cons inside, offsetChain,
      ih (row + 1) offsets[row] (by omega) (by omega)]
    simp only [notFirst, false_and, false_or, later, true_and]

theorem offsetChain_sound (previous : Nat) (inside : previous ≤ values.length)
    (ran : offsetChain values offsets previous = some values.length) :
    ∃ cells : List Bytes, offsets = offsetsFrom previous cells ∧
      slice values previous values.length = cells.flatten ∧ ∀ cell ∈ cells, isUtf8 cell = true := by
  induction offsets generalizing previous with
  | nil =>
    have same : previous = values.length := Option.some.inj ran
    refine ⟨[], rfl, ?_, fun cell member => absurd member not_mem_nil⟩
    rw [same, slice, Nat.sub_self, take_zero]
    rfl
  | cons value rest ih =>
    unfold offsetChain at ran
    split_ifs at ran with bad invalid
    have ordered : previous ≤ value ∧ value ≤ values.length := by omega
    rcases ih value ordered.2 ran with ⟨cells, tail, text, valid⟩
    have size : (slice values previous value).length = value - previous :=
      slice_length _ _ ordered.2
    refine ⟨slice values previous value :: cells, ?_, ?_, ?_⟩
    · have next : previous + (value - previous) = value := by omega
      rw [offsetsFrom, size, next, tail]
    · have cut : values.length - previous = (value - previous) + (values.length - value) := by omega
      have skip : previous + (value - previous) = value := by omega
      rw [flatten_cons, ← text, slice, cut, take_add, drop_drop, skip]
      rfl
    · intro cell member
      rcases mem_cons.mp member with rfl | later
      · exact Bool.eq_true_of_not_eq_false invalid
      · exact valid cell later

theorem offsetChain_complete (before : Bytes) (cells : List Bytes)
    (valid : ∀ cell ∈ cells, isUtf8 cell = true) :
    offsetChain (before ++ cells.flatten) (offsetsFrom before.length cells) before.length =
      some (before ++ cells.flatten).length := by
  induction cells generalizing before with
  | nil =>
    rw [flatten_nil, append_nil]
    rfl
  | cons cell rest ih =>
    have next := ih (before ++ cell) fun c member => valid c (mem_cons_of_mem cell member)
    have here : slice (before ++ (cell ++ rest.flatten)) before.length
      (before.length + cell.length) = cell :=
      (at_middle _ _ _).slice rfl
    have bad : ¬ (before.length + cell.length < before.length ∨
      (before ++ (cell ++ rest.flatten)).length < before.length + cell.length) := by
      rw [length_append, length_append]
      omega
    rw [length_append, List.append_assoc] at next
    rw [flatten_cons, offsetsFrom, offsetChain, if_neg bad, here,
      if_neg (by rw [valid cell mem_cons_self]; decide)]
    exact next

theorem frameStrOffset_eq (small : ∀ n ∈ offsets, n < 2 ^ 32) (i : Nat)
    (inside : i < offsets.length) : frameStrOffset (offsetBytes offsets) i = offsets[i] := by
  have here := at_flatMap _ (toLe_length 4) _ i inside
  rw [frameStrOffset, offsetBytes, here.slice (by rw [toLe_length]),
    ofLe_toLe _ (small _ (getElem_mem inside))]

theorem offsetsFrom_getElem (i : Nat) (inside : i < (start :: offsetsFrom start cells).length) :
    (start :: offsetsFrom start cells)[i] = start + (cells.take i).flatten.length := by
  induction cells generalizing start i with
  | nil =>
    have zero : i = 0 := by
      simp only [offsetsFrom, length_cons, length_nil] at inside
      omega
    subst zero
    rfl
  | cons cell rest ih =>
    cases i with
    | zero => rfl
    | succ i =>
      have next := ih (start + cell.length) i (by
        simp only [offsetsFrom, length_cons] at inside ⊢
        omega)
      rw [take_succ_cons, flatten_cons, length_append, ← Nat.add_assoc, ← next]
      rfl

theorem flatten_at (inside : i < cells.length) :
    At cells.flatten (cells.take i).flatten.length cells[i] := by
  have cut : cells.flatten = (cells.take i).flatten ++ (cells[i] ++ (cells.drop (i + 1)).flatten) := by
    nth_rewrite 1 [← take_append_drop i cells]
    rw [flatten_append, drop_eq_getElem_cons inside, flatten_cons]
  have here := at_middle (cells.take i).flatten cells[i] (cells.drop (i + 1)).flatten
  rwa [← cut] at here

theorem offsets_small (small : cells.flatten.length < 2 ^ 31) : ∀ n ∈ 0 :: offsetsFrom 0 cells, n < 2 ^ 32 := by
  intro n member
  rcases mem_cons.mp member with rfl | tail
  · decide
  · have := offsetsFrom_le 0 _ n tail
    omega

theorem read_cells (small : cells.flatten.length < 2 ^ 31) :
    (List.range cells.length).map (frameStrAt (textOffsets cells) cells.flatten) = cells := by
  have words := offsets_small _ small
  have size : (0 :: offsetsFrom 0 cells).length = cells.length + 1 := by
    rw [length_cons, offsetsFrom_length]
  apply ext_getElem
  · rw [length_map, length_range]
  · intro i _ inside
    have low := frameStrOffset_eq words i (by omega)
    have high := frameStrOffset_eq words (i + 1) (by omega)
    rw [offsetsFrom_getElem] at low high
    have next : (cells.take (i + 1)).flatten.length = (cells.take i).flatten.length + cells[i].length := by
      rw [take_succ_eq_append_getElem inside, flatten_append, length_append]
      simp
    rw [getElem_map, getElem_range, frameStrAt, textOffsets, low, high, Nat.zero_add, Nat.zero_add]
    exact (flatten_at _ inside).slice next

theorem text_canonical (small : cells.flatten.length < 2 ^ 31) (valid : ∀ cell ∈ cells, isUtf8 cell = true) :
    CanonicalData cells.length (.str (textOffsets cells) cells.flatten) := by
  have words := offsets_small _ small
  have size : (0 :: offsetsFrom 0 cells).length = cells.length + 1 := by
    rw [length_cons, offsetsFrom_length]
  have chain := offsetChain_complete [] cells valid
  have rest := offsetRun_eq cells.flatten words cells.length 1 0 (by decide)
    (by omega)
  refine ⟨by rw [textOffsets, offsetBytes_length, size], small, ?_⟩
  exact rest.trans chain

theorem canonical_text (canonical : CanonicalData rows (.str offsets values)) :
    ∃ cells : List Bytes, cells.length = rows ∧ offsets = textOffsets cells ∧
      values = cells.flatten ∧ ∀ cell ∈ cells, isUtf8 cell = true := by
  rcases canonical with ⟨size, small, ran⟩
  have bytes : offsetBytes ((List.range (rows + 1)).map (frameStrOffset offsets)) = offsets := by
    rw [offsetBytes, flatMap_map]
    exact words_of_bytes size
  have words : ∀ n ∈ (List.range (rows + 1)).map (frameStrOffset offsets), n < 2 ^ 32 := by
    intro n member
    rcases mem_map.mp member with ⟨i, inside, rfl⟩
    have bound := ofLe_lt (slice offsets (i * 4) (i * 4 + 4))
    have below := mem_range.mp inside
    rwa [slice_width (by omega)] at bound
  have count : ((List.range (rows + 1)).map (frameStrOffset offsets)).length = rows + 1 := by
    rw [length_map, length_range]
  generalize (List.range (rows + 1)).map (frameStrOffset offsets) = table at bytes words count
  cases table with
  | nil => cases count
  | cons first rest =>
    have read := readU32_offset words (length_pos_iff.mpr (cons_ne_nil first rest))
    rw [bytes, getElem_cons_zero] at read
    rw [offsetRun, read, Option.bind_some] at ran
    split_ifs at ran with bad
    have zero : first = 0 := by
      by_contra nonzero
      exact bad (Or.inl ⟨rfl, nonzero⟩)
    subst zero
    rw [← bytes, offsetRun_eq _ words _ 1 0 (by decide) (by omega),
      drop_one, tail_cons] at ran
    rcases offsetChain_sound 0 (Nat.zero_le _) ran with ⟨cells, tail, text, valid⟩
    refine ⟨cells, ?_, ?_, ?_, valid⟩
    · rw [tail, length_cons, offsetsFrom_length] at count
      omega
    · rw [textOffsets, ← tail]
      exact bytes.symm
    · rw [← text, slice, Nat.sub_zero, drop_zero, take_length]

def stagedData : Values → CodecColumnData
  | .i64 values => .i64 (wordBytes values)
  | .f64 values => .f64 (wordBytes values)
  | .bool values => .bool (packBools ((values.length + 7) / 8) (values.map boolByte))
  | .str cells => .str (textOffsets cells) cells.flatten

/-- Values for a batch of `rows` rows. -/
def Values.Ok (rows : Nat) : Values → Prop
  | .i64 values | .f64 values => values.length = rows
  | .bool values => values.length = rows
  | .str cells => cells.length = rows ∧ cells.flatten.length < 2 ^ 31 ∧
      ∀ cell ∈ cells, isUtf8 cell = true

theorem staged_canonical (ok : values.Ok rows) :
    CanonicalData rows (stagedData values) ∧ exposedValues rows (stagedData values) = values := by
  cases values with
  | i64 values | f64 values =>
    have size : values.length = rows := ok
    subst size
    refine ⟨wordBytes_length _, ?_⟩
    rw [stagedData, exposedValues, read_words]
  | bool values =>
    have size : values.length = rows := ok
    subst size
    have packed := packed_canonical (values.map boolByte)
    rw [length_map] at packed
    refine ⟨packed.1, ?_⟩
    rw [stagedData, exposedValues, packed.2, map_map]
    congr 1
    exact (map_congr_left fun value _ => boolByte_ne_zero _).trans (map_id _)
  | str cells =>
    rcases ok with ⟨rfl, small, valid⟩
    refine ⟨text_canonical _ small valid, ?_⟩
    rw [stagedData, exposedValues, read_cells _ small]

theorem canonical_staged (canonical : CanonicalData rows data) :
    (exposedValues rows data).Ok rows ∧ stagedData (exposedValues rows data) = data := by
  cases data with
  | i64 data | f64 data =>
    refine ⟨by simp [exposedValues, Values.Ok], ?_⟩
    rw [exposedValues, stagedData, words_read canonical]
  | bool data =>
    refine ⟨by simp [exposedValues, Values.Ok], ?_⟩
    rw [exposedValues, stagedData, length_map, length_range, map_map]
    exact congrArg _ (canonical_packed canonical)
  | str offsets values =>
    rcases canonical_text canonical with ⟨cells, rfl, rfl, rfl, valid⟩
    have small : cells.flatten.length < 2 ^ 31 := canonical.2.1
    rw [exposedValues, read_cells _ small]
    exact ⟨⟨rfl, small, valid⟩, rfl⟩

end Align.Columnar
