import Align.ColumnarValues

/-! The staging encoder. Its name index stays sorted, so the binary search finds
every earlier name; a put with well-formed arguments is one insertion; and a run
of puts leaves exactly the accepted columns, whose envelope `finish` writes. -/
namespace Align.Columnar
open Codec Segments List Option

structure CodecEncoder.Indexed (encoder : CodecEncoder) : Prop where
  ordinals : encoder.names.Perm (List.range encoder.columns.length)
  sorted : encoder.names.Pairwise fun i j =>
    columnName encoder.columns i < columnName encoder.columns j

variable (columns : List CodecColumn)

theorem columnName_getElem (inside : i < columns.length) :
    columnName columns i = columns[i].name := by
  rw [columnName, getElem?_eq_getElem inside]
  rfl

theorem CodecEncoder.Indexed.name_mem {encoder : CodecEncoder} (indexed : encoder.Indexed) (name : Bytes) :
    name ∈ encoder.columns.map CodecColumn.name ↔
      ∃ i ∈ encoder.names, columnName encoder.columns i = name := by
  constructor
  · intro member
    rcases List.mem_map.mp member with ⟨column, inside, rfl⟩
    rcases getElem_of_mem inside with ⟨i, bound, rfl⟩
    exact ⟨i, indexed.ordinals.mem_iff.mpr (mem_range.mpr bound), columnName_getElem _ bound⟩
  · rintro ⟨i, member, rfl⟩
    have bound := mem_range.mp (indexed.ordinals.mem_iff.mp member)
    rw [columnName_getElem _ bound]
    exact List.mem_map.mpr ⟨_, getElem_mem bound, rfl⟩

theorem searchName_split {encoder : CodecEncoder} (indexed : encoder.Indexed) :
    (∀ i ∈ encoder.names.take (searchName encoder name).1, columnName encoder.columns i < name) ∧
      (∀ i ∈ encoder.names.drop (searchName encoder name).1,
        name ≤ columnName encoder.columns i) ∧
      ((searchName encoder name).2 = true ↔ name ∈ encoder.columns.map CodecColumn.name) := by
  have position : (searchName encoder name).1 = (encoder.names.findIdx? fun ordinal =>
    !decide (columnName encoder.columns ordinal < name)).getD encoder.names.length := rfl
  have found : (searchName encoder name).2 = encoder.names[(searchName encoder name).1]?.elim false
    fun ordinal => columnName encoder.columns ordinal == name := by
    cases at_ : encoder.names[(searchName encoder name).1]? <;>
      simp only [searchName] at at_ ⊢ <;> rw [at_] <;> rfl
  rw [found, indexed.name_mem]
  cases search : encoder.names.findIdx? fun ordinal =>
    !decide (columnName encoder.columns ordinal < name) with
  | none =>
    rw [search, getD_none] at position
    have below := findIdx?_eq_none_iff.mp search
    simp only [Bool.not_eq_false', decide_eq_true_iff] at below
    rw [position, take_length, drop_length, getElem?_eq_none (Nat.le_refl _)]
    refine ⟨below, fun i member => absurd member not_mem_nil, ?_⟩
    constructor
    · intro absurd_
      cases absurd_
    · rintro ⟨i, member, rfl⟩
      exact absurd (below i member) (List.lt_irrefl _)
  | some p =>
    rw [search, getD_some] at position
    rcases findIdx?_eq_some_iff_getElem.mp search with ⟨bound, stops, before⟩
    simp only [Bool.not_eq_true', decide_eq_false_iff_not] at stops
    simp only [Bool.not_eq_true, Bool.not_eq_false', decide_eq_true_iff] at before
    rw [position, getElem?_eq_getElem bound]
    have front : ∀ i ∈ encoder.names.take p, columnName encoder.columns i < name := by
      intro i member
      rcases mem_take_iff_getElem.mp member with ⟨k, small, rfl⟩
      exact before k (by omega)
    have sorted := indexed.sorted
    rw [← take_append_drop p encoder.names, drop_eq_getElem_cons bound, pairwise_append] at sorted
    have behind := (pairwise_cons.mp sorted.2.1).1
    have back : ∀ i ∈ encoder.names.drop p, name ≤ columnName encoder.columns i := by
      intro i member
      rw [drop_eq_getElem_cons bound] at member
      rcases mem_cons.mp member with rfl | later
      · exact stops
      · exact List.le_trans stops (List.le_of_lt (behind i later))
    refine ⟨front, back, ?_⟩
    constructor
    · intro same
      exact ⟨_, getElem_mem bound, eq_of_beq same⟩
    · rintro ⟨i, member, rfl⟩
      rw [← take_append_drop p encoder.names, mem_append] at member
      rcases member with early | late
      · exact absurd (front i early) (List.lt_irrefl _)
      · rw [drop_eq_getElem_cons bound] at late
        rcases mem_cons.mp late with rfl | later
        · exact beq_self_eq_true _
        · exact absurd (behind i later) stops

theorem columnName_append (inside : i < columns.length) : columnName (columns ++ [column]) i = columnName columns i := by
  rw [columnName, columnName, getElem?_append_left inside]

theorem columnName_last :
    columnName (columns ++ [column]) columns.length = column.name := by
  rw [columnName, getElem?_append_right (Nat.le_refl _), Nat.sub_self]
  rfl

def CodecEncoder.extend (encoder : CodecEncoder) (column : CodecColumn) : CodecEncoder :=
  { encoder with
    columns := encoder.columns ++ [column]
    names := encoder.names.take (searchName encoder column.name).1 ++
      encoder.columns.length :: encoder.names.drop (searchName encoder column.name).1 }

theorem CodecEncoder.Indexed.extend {encoder : CodecEncoder} (indexed : encoder.Indexed)
    (column : CodecColumn) (fresh : column.name ∉ encoder.columns.map CodecColumn.name) :
    (encoder.extend column).Indexed := by
  rcases searchName_split indexed with ⟨front, back, _⟩
  have bounds : ∀ i ∈ encoder.names, i < encoder.columns.length := fun i member =>
    mem_range.mp (indexed.ordinals.mem_iff.mp member)
  constructor
  · refine perm_middle.trans ?_
    rw [take_append_drop]
    have size : (encoder.extend column).columns.length = encoder.columns.length + 1 := by
      simp [CodecEncoder.extend]
    rw [size, range_succ]
    exact (indexed.ordinals.cons _).trans (perm_append_singleton _ _).symm
  · have old : ∀ i ∈ encoder.names,
      columnName (encoder.extend column).columns i = columnName encoder.columns i := fun i member =>
      columnName_append _ (bounds i member)
    have new : columnName (encoder.extend column).columns encoder.columns.length = column.name :=
      columnName_last _
    have strict : ∀ i ∈ encoder.names.drop (searchName encoder column.name).1,
      column.name < columnName encoder.columns i := by
      intro i member
      by_contra notLess
      have same := List.le_antisymm (back i member) notLess
      exact fresh ((indexed.name_mem _).mpr ⟨i, mem_of_mem_drop member, same.symm⟩)
    have sorted : encoder.names.Pairwise fun i j =>
      columnName (encoder.extend column).columns i < columnName (encoder.extend column).columns j := by
      refine indexed.sorted.imp_of_mem ?_
      intro i j iMember jMember less
      rwa [old i iMember, old j jMember]
    rw [← take_append_drop (searchName encoder column.name).1 encoder.names, pairwise_append] at sorted
    rcases sorted with ⟨left, right, across⟩
    refine pairwise_append.mpr ⟨left, pairwise_cons.mpr ⟨?_, right⟩, ?_⟩
    · intro j member
      rw [new, old j (mem_of_mem_drop member)]
      exact strict j member
    · intro i iMember j jMember
      rcases mem_cons.mp jMember with rfl | later
      · rw [old i (mem_of_mem_take iMember), new]
        exact front i iMember
      · exact across i iMember j later

def CodecEncoder.Accepts (encoder : CodecEncoder) (column : CodecColumn) : Prop :=
  encoder.columns.length < codecMaxColumns ∧ (searchName encoder column.name).2 = false ∧
    envelopeLen (encoder.columns ++ [column]) < 2 ^ 63

instance (encoder : CodecEncoder) (column : CodecColumn) : Decidable (encoder.Accepts column) :=
  inferInstanceAs (Decidable (_ ∧ _ ∧ _))

theorem codecUsize_isNone : (codecUsize n).isNone = true ↔ ¬ n < 2 ^ 63 := by
  rw [codecUsize]
  split_ifs with fits
  · exact iff_of_false Bool.false_ne_true (not_not.mpr fits)
  · exact iff_of_true rfl fits

theorem codecInsert_eq (encoder : CodecEncoder) (column : CodecColumn) :
    codecInsert encoder column =
      if encoder.Accepts column then (true, encoder.extend column) else (false, encoder) := by
  rw [codecInsert, codecOutputLen_some]
  by_cases full : codecMaxColumns ≤ encoder.columns.length
  · rw [if_pos full, if_neg fun accepts => absurd accepts.1 (Nat.not_lt.mpr full)]
  rw [if_neg full]
  by_cases found : (searchName encoder column.name).2 = true
  · rw [if_pos found, if_neg]
    intro accepts
    rw [accepts.2.1] at found
    cases found
  rw [if_neg found]
  by_cases fits : envelopeLen (encoder.columns ++ [column]) < 2 ^ 63
  · rw [if_neg fun none_ => (codecUsize_isNone).mp none_ fits,
      if_pos ⟨Nat.not_le.mp full, Bool.eq_false_iff.mpr found, fits⟩]
    rfl
  · rw [if_pos ((codecUsize_isNone).mpr fits), if_neg fun accepts => fits accepts.2.2]

theorem buffer_le_envelope (column : CodecColumn) :
    column.buffers.1.length ≤ envelopeLen (columns ++ [column]) := by
  have area : column.buffers.1.length ≤ (columnArea column).length := by
    rw [columnArea_length, areaLen]
    have := alignUp_le column.buffers.1.length
    omega
  have all : (columnArea column).length ≤ (areas (columns ++ [column])).length := by
    rw [areas_append, length_append]
    rw [show areas [column] = columnArea column from append_nil _]
    exact Nat.le_add_left _ _
  rw [envelopeLen]
  omega

theorem safeLen_lt (safe : safeLen len = some n) :
    (n : Int) = len ∧ n < 2 ^ 63 := by
  rw [safeLen, ite_none_right_eq_some, Option.some.injEq] at safe
  omega

theorem items_length {α : Type} {view : View α} (safe : safeLen view.len = some len)
    (present : ¬ (0 < len ∧ view.ptr.isNone = true)) : view.items.length = len := by
  have range := safeLen_lt safe
  rw [View.items]
  split_ifs
  · rw [length_nil]
    omega
  rcases ptr : view.ptr with _ | items
  · exact absurd ⟨by omega, by rw [ptr]; rfl⟩ present
  have readable := view.readable items ptr (by omega)
  rw [getD_some]
  omega

def FixedValues.values : FixedValues → Values
  | .i64 values => .i64 values.items
  | .f64 values => .f64 values.items
  | .bool values => .bool (values.items.map fun value => decide (value ≠ 0))

def Put.name : Put → View UInt8
  | .fixed name _ | .text name _ => name

def Put.len : Put → Int
  | .fixed _ values => values.len
  | .text _ values => values.len

def Put.isNull : Put → Bool
  | .fixed _ values => values.isNull
  | .text _ values => values.ptr.isNone

def Put.values : Put → Values
  | .fixed _ values => values.values
  | .text _ values => .str (values.items.map View.items)

def Put.readable : Put → Bool
  | .fixed _ _ => true
  | .text _ values => (textTotal values.items).isSome

/-- The column a put describes for a batch of `rows` rows, if its arguments are
well formed. -/
def Put.column (rows : Nat) (put : Put) : Option (Bytes × Values) :=
  (codecName put.name).bind fun name =>
    if safeLen put.len = some rows ∧ ¬ (0 < rows ∧ put.isNull = true) ∧ put.readable = true then
      some (name, put.values)
    else none

theorem bool_stage (size : byteLen = (values.length + 7) / 8) :
    packBools byteLen values =
      packBools (((values.map fun value => decide (value ≠ 0)).length + 7) / 8)
        ((values.map fun value => decide (value ≠ 0)).map boolByte) := by
  subst size
  have room : values.length ≤ (values.length + 7) / 8 * 8 := by omega
  rcases packBools_bits _ _ room with ⟨length, bits⟩
  rcases packBools_bits _
    ((values.map fun value => decide (value ≠ 0)).map boolByte)
    (by rw [length_map, length_map]; exact room) with ⟨length', bits'⟩
  rw [length_map]
  apply bits_ext (length.trans length'.symm)
  intro i
  rw [bits, bits', getD_eq_getElem?_getD, getD_eq_getElem?_getD, List.map_map, getElem?_map]
  cases values[i]? with
  | none => rfl
  | some value => exact (boolByte_ne_zero _).symm

theorem fixed_stage {values : FixedValues} (safe : safeLen values.len = some len)
    (present : ¬ (0 < len ∧ values.isNull = true)) :
    values.byteLen len = checked (CodecColumn.mk name (stagedData values.values)).buffers.1.length ∧
      (CodecColumn.mk name (stagedData values.values)).buffers.2 = none ∧
      ∀ byteLen, values.byteLen len = some byteLen →
        values.stage byteLen = stagedData values.values := by
  cases values with
  | i64 values | f64 values =>
    have size := items_length safe present
    refine ⟨?_, rfl, fun _ _ => rfl⟩
    change checked (len * 8) = checked (wordBytes values.items).length
    rw [wordBytes_length, size]
  | bool values =>
    have size := items_length safe present
    have small := (safeLen_lt safe).2
    have planned : (FixedValues.bool values).byteLen len = some ((len + 7) / 8) := by
      change (checkedAdd len 7).map (· / 8) = _
      rw [checkedAdd, checked, if_pos (by omega)]
      rfl
    have stage := bool_stage (by rw [size])
    have length : (packBools ((len + 7) / 8) values.items).length = (len + 7) / 8 :=
      (packBools_bits _ _ (by omega)).1
    refine ⟨?_, rfl, ?_⟩
    · rw [planned]
      change _ = checked (packBools _ _).length
      rw [← stage, length, checked, if_pos (by omega)]
    · intro byteLen same
      rw [planned, Option.some.injEq] at same
      subst same
      exact congrArg CodecColumnData.bool stage

def CellOk (cell : View UInt8) : Prop :=
  (∃ len, safeLen cell.len = some len ∧ ¬ (0 < len ∧ cell.ptr.isNone = true)) ∧
    isUtf8 cell.items = true

def totalStep (total : Nat) (cell : View UInt8) : Option Nat :=
  (safeLen cell.len).bind fun len =>
    if 0 < len ∧ cell.ptr.isNone then none
    else if isUtf8 cell.items = false then none
    else (checkedAdd total len).bind fun next => if next < 2 ^ 31 then some next else none

theorem totalStep_iff (total next : Nat) :
    totalStep total cell = some next ↔
      CellOk cell ∧ next = total + cell.items.length ∧ next < 2 ^ 31 := by
  simp only [totalStep, bind_eq_some_iff, ite_none_left_eq_some, ite_none_right_eq_some, checkedAdd,
    checked_iff, Bool.not_eq_false, Option.some.injEq]
  constructor
  · rintro ⟨len, safe, null, utf8, _, ⟨rfl, _⟩, fits, rfl⟩
    rw [items_length safe null]
    exact ⟨⟨⟨len, safe, null⟩, utf8⟩, rfl, fits⟩
  · rintro ⟨⟨⟨len, safe, null⟩, utf8⟩, rfl, fits⟩
    rw [items_length safe null] at fits ⊢
    exact ⟨len, safe, null, utf8, _, ⟨rfl, by omega⟩, fits, rfl⟩

variable (cells : List (View UInt8)) (start total : Nat)

theorem total_run (small : start < 2 ^ 31) :
    cells.foldlM totalStep start = some total ↔
      (∀ cell ∈ cells, CellOk cell) ∧ total = start + (cells.map View.items).flatten.length ∧
        total < 2 ^ 31 := by
  induction cells generalizing start with
  | nil =>
    change some start = some total ↔ _
    rw [Option.some.injEq]
    constructor
    · rintro rfl
      exact ⟨fun cell member => absurd member not_mem_nil, rfl, small⟩
    · rintro ⟨_, rfl, _⟩
      rfl
  | cons cell rest ih =>
    rw [foldlM_cons, bind_eq_bind, bind_eq_some_iff, map_cons, flatten_cons, length_append, forall_mem_cons]
    constructor
    · rintro ⟨next, step, run⟩
      rcases (totalStep_iff _ _).mp step with ⟨ok, rfl, fits⟩
      rcases (ih _ fits).mp run with ⟨others, rfl, bound⟩
      exact ⟨⟨ok, others⟩, by omega, bound⟩
    · rintro ⟨⟨ok, others⟩, rfl, bound⟩
      have fits : start + cell.items.length < 2 ^ 31 := by omega
      exact ⟨_, (totalStep_iff _ _).mpr ⟨ok, rfl, fits⟩, (ih _ fits).mpr ⟨others, by omega, bound⟩⟩

theorem textTotal_iff :
    textTotal cells = some total ↔
      (∀ cell ∈ cells, CellOk cell) ∧ total = (cells.map View.items).flatten.length ∧
        total < 2 ^ 31 := by
  have run := total_run cells 0 total (by decide)
  rwa [Nat.zero_add] at run

theorem stage_run (offsets data : Bytes) (ok : ∀ cell ∈ cells, CellOk cell)
    (small : data.length + (cells.map View.items).flatten.length < 2 ^ 31) :
    cells.foldlM (fun (offsets, data) cell =>
      (safeLen cell.len).bind fun _ =>
        let data := data ++ cell.items
        if data.length < 2 ^ 31 then some (offsets ++ toLe 4 data.length, data) else none)
      (offsets, data) =
      some (offsets ++ offsetBytes (offsetsFrom data.length (cells.map View.items)),
        data ++ (cells.map View.items).flatten) := by
  induction cells generalizing offsets data with
  | nil =>
    change some (offsets, data) = some (offsets ++ [], data ++ [])
    rw [append_nil, append_nil]
  | cons cell rest ih =>
    rcases (forall_mem_cons.mp ok) with ⟨⟨⟨len, safe, _⟩, _⟩, others⟩
    rw [map_cons, flatten_cons, length_append] at small
    have size : (data ++ cell.items).length = data.length + cell.items.length :=
      length_append
    rw [foldlM_cons, bind_eq_bind]
    simp only [safe, bind_some]
    rw [if_pos (by omega), bind_some, ih _ _ others (by omega), size, map_cons,
      offsetsFrom, offsetBytes, offsetBytes, flatMap_cons, flatten_cons,
      List.append_assoc, List.append_assoc]

theorem stageText_eq (ok : ∀ cell ∈ cells, CellOk cell)
    (small : (cells.map View.items).flatten.length < 2 ^ 31) :
    stageText cells = some (textOffsets (cells.map View.items), (cells.map View.items).flatten) := by
  have run := stage_run _ (toLe 4 0) [] ok (by rw [length_nil, Nat.zero_add]; exact small)
  exact run.trans (by rw [nil_append]; rfl)

theorem textOffsets_length (cells : List Bytes) :
    (textOffsets cells).length = (cells.length + 1) * 4 := by
  rw [textOffsets, offsetBytes_length, length_cons, offsetsFrom_length]

variable (encoder : CodecEncoder)

theorem insert_refused (refused : ¬ encoder.Accepts column) : codecInsert encoder column = (false, encoder) := by
  rw [codecInsert_eq, if_neg refused]

theorem insert_planned (column : CodecColumn) :
    planned = checked column.buffers.1.length → (match planned with
      | none => (false, encoder)
      | some dataLen =>
        if (searchName encoder column.name).2 then (false, encoder)
        else if (codecOutputLenParts encoder.columns (some (column.name.length, dataLen,
          column.buffers.2.map List.length))).isNone then (false, encoder)
        else codecInsert encoder column) = codecInsert encoder column := by
  intro size
  have bound := buffer_le_envelope encoder.columns column
  rw [checked] at size
  split_ifs at size
  · subst size
    change (if (searchName encoder column.name).2 then (false, encoder)
      else if (codecOutputLen encoder.columns (some column)).isNone then (false, encoder)
      else codecInsert encoder column) = codecInsert encoder column
    rw [codecOutputLen_some]
    split_ifs with found none_
    · exact (insert_refused _ fun accepts => absurd found (Bool.eq_false_iff.mp accepts.2.1)).symm
    · exact (insert_refused _ fun accepts => codecUsize_isNone.mp none_ accepts.2.2).symm
    · rfl
  · subst size
    refine (insert_refused _ fun accepts => ?_).symm
    have := accepts.2.2
    omega

theorem fixed_eq :
    codecFixedWidthInput encoder name values =
      match (Put.fixed name values).column encoder.rows with
      | none => (false, encoder)
      | some (name, values) => codecInsert encoder ⟨name, stagedData values⟩ := by
  rw [codecFixedWidthInput, Put.column, Put.name]
  cases codecName name with
  | none => rfl
  | some text =>
    simp only [bind_some, Put.len, Put.isNull, Put.readable, Put.values, and_true]
    by_cases full : codecMaxColumns ≤ encoder.columns.length
    · rw [if_pos full]
      split
      · rfl
      · exact (insert_refused _ fun accepts => Nat.not_lt.mpr full accepts.1).symm
    rw [if_neg full]
    by_cases good : safeLen values.len = some encoder.rows ∧ ¬ (0 < encoder.rows ∧ values.isNull = true)
    · rcases fixed_stage good.1 good.2 with ⟨planned, single, staged⟩
      rw [if_pos good, good.1]
      simp only [ne_eq, not_true_eq_false, ↓reduceIte, if_neg good.2]
      rw [← insert_planned _ _ planned]
      cases here : values.byteLen encoder.rows with
      | none => rfl
      | some byteLen => simp only [staged byteLen here, single, map_none]
    · rw [if_neg good]
      rcases safe : safeLen values.len with _ | len
      · rfl
      by_cases size : len = encoder.rows
      · subst size
        have null := Classical.not_not.mp fun present => good ⟨safe, present⟩
        simp only [ne_eq, not_true_eq_false, ↓reduceIte, if_pos null]
        cases values.byteLen encoder.rows <;> rfl
      · simp only [ne_eq, size, not_false_eq_true, ↓reduceIte]

theorem text_eq :
    codecEncoderPutStr encoder name values =
      match (Put.text name values).column encoder.rows with
      | none => (false, encoder)
      | some (name, values) => codecInsert encoder ⟨name, stagedData values⟩ := by
  rw [codecEncoderPutStr, Put.column, Put.name]
  cases codecName name with
  | none => rfl
  | some text =>
    rw [bind_some]
    dsimp only
    by_cases full : codecMaxColumns ≤ encoder.columns.length
    · rw [if_pos full]
      split
      · rfl
      · exact (insert_refused _ fun accepts => Nat.not_lt.mpr full accepts.1).symm
    rw [if_neg full]
    by_cases good : safeLen (Put.text name values).len = some encoder.rows ∧
      ¬ (0 < encoder.rows ∧ (Put.text name values).isNull = true) ∧ (Put.text name values).readable = true
    · rcases isSome_iff_exists.mp good.2.2 with ⟨sum, total⟩
      rcases (textTotal_iff _ _).mp total with ⟨ok, rfl, small⟩
      have rows := items_length good.1 good.2.1
      have planned : (checkedAdd encoder.rows 1).bind (checkedMul · 4) =
        checked (textOffsets (values.items.map View.items)).length := by
        rw [textOffsets_length, length_map, rows]
        exact checked_bind _ _ fun x =>
          Nat.le_mul_of_pos_right x (by decide)
      rw [if_pos good, show safeLen values.len = some encoder.rows from good.1, total,
        stageText_eq _ ok small]
      have present : ¬ (0 < encoder.rows ∧ values.ptr.isNone = true) := good.2.1
      simp only [ne_eq, not_true_eq_false, ↓reduceIte, if_neg present]
      exact insert_planned _ ⟨text, .str _ _⟩ planned
    · rw [if_neg good]
      rcases safe : safeLen values.len with _ | len
      · rfl
      by_cases size : len = encoder.rows
      · subst size
        simp only [ne_eq, not_true_eq_false, ↓reduceIte]
        by_cases null : 0 < encoder.rows ∧ values.ptr.isNone = true
        · rw [if_pos null]
        · rw [if_neg null]
          cases total : textTotal values.items with
          | none => rfl
          | some sum => exact absurd ⟨safe, null, by rw [Put.readable, total]; rfl⟩ good
      · simp only [ne_eq, size, not_false_eq_true, ↓reduceIte]

theorem put_eq (put : Put) :
    encoder.put put =
      match put.column encoder.rows with
      | none => (false, encoder)
      | some (name, values) => codecInsert encoder ⟨name, stagedData values⟩ := by
  cases put with
  | fixed name values => exact fixed_eq _
  | text name values => exact text_eq _

end Align.Columnar
