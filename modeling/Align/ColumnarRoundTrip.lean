import Align.ColumnarEncoder

/-! Whole runs of the encoder against the validator. The encoder's state after any
puts is the staged form of the accepted columns, so `finish` writes their envelope;
an accepted envelope in turn is what the encoder writes for the columns it
exposes. -/
namespace Align.Columnar
open Codec Segments List Option

def stagedColumn (entry : Bytes × Values) : CodecColumn := ⟨entry.1, stagedData entry.2⟩

def exposedColumn (rows : Nat) (column : CodecColumn) : Bytes × Values :=
  (column.name, exposedValues rows column.data)

/-- Rows and columns as the accessors read them from an accepted envelope. -/
def exposed (input : Bytes) : Option (Nat × List (Bytes × Values)) :=
  (openHeader input).bind fun (_, rows, count) =>
    ((List.range count).mapM (codecDescriptor input)).map fun descriptors =>
      (rows, descriptors.map fun d => exposedColumn rows (columnOf input d))

variable {input : Bytes} {descriptors : List CodecDescriptor}

theorem table_mapM (start : Nat) (table : Table input start descriptors) :
    (List.range' start descriptors.length).mapM (codecDescriptor input) = some descriptors := by
  induction descriptors generalizing start with
  | nil => rfl
  | cons d rest ih =>
    rcases table with ⟨here, later⟩
    rw [length_cons, range'_succ, mapM_cons, here, ih (start + 1) later]
    rfl

variable {rows : Nat}

theorem exposed_eq (opened : openHeader input = some (total, rows, descriptors.length))
    (table : Table input 0 descriptors) :
    exposed input =
      some (rows, (descriptors.map (columnOf input)).map (exposedColumn rows)) := by
  rw [exposed, opened, bind_some]
  dsimp only
  rw [range_eq_range', table_mapM 0 table, map_some, List.map_map]
  rfl

theorem exposed_staged {entry : Bytes × Values} (ok : entry.2.Ok rows) :
    exposedColumn rows (stagedColumn entry) = entry :=
  Prod.ext rfl (staged_canonical ok).2

variable {column : CodecColumn}

theorem staged_exposed (canonical : CanonicalData rows column.data) :
    stagedColumn (exposedColumn rows column) = column := by
  cases column with
  | mk name data =>
    exact congrArg (CodecColumn.mk name) (canonical_staged canonical).2

/-- The encoder holds the staged form of `batch`. -/
structure CodecEncoder.Encodes (encoder : CodecEncoder) (batch : List (Bytes × Values)) : Prop where
  indexed : encoder.Indexed
  admissible : Admissible encoder.rows encoder.columns
  staged : encoder.columns = batch.map stagedColumn
  ok : ∀ entry ∈ batch, entry.2.Ok encoder.rows

theorem codecName_iff (named : codecName view = some name) :
    name = view.items ∧ name ≠ [] ∧ name.length < 2 ^ 32 ∧ isUtf8 name = true := by
  simp only [codecName, bind_eq_some_iff, ite_none_left_eq_some, ite_none_right_eq_some, not_or,
    Option.some.injEq] at named
  rcases named with ⟨len, safe, ⟨filled, present, short⟩, utf8, rfl⟩
  have size := items_length safe fun null => present null.2
  refine ⟨rfl, ?_, by omega, utf8⟩
  intro empty
  rw [empty, length_nil] at size
  exact filled size.symm

variable {put : Put}

theorem put_values_ok (safe : safeLen put.len = some rows)
    (present : ¬ (0 < rows ∧ put.isNull = true)) (readable : put.readable = true) :
    put.values.Ok rows := by
  cases put with
  | fixed name values =>
    cases values with
    | i64 values | f64 values => exact items_length safe present
    | bool values => exact length_map _ |>.trans (items_length safe present)
  | text name values =>
    rcases isSome_iff_exists.mp readable with ⟨total, known⟩
    rcases (textTotal_iff _ _).mp known with ⟨ok, rfl, small⟩
    refine ⟨length_map _ |>.trans (items_length safe present), small, ?_⟩
    intro cell member
    rcases List.mem_map.mp member with ⟨view, inside, rfl⟩
    exact (ok view inside).2

theorem column_ok (described : put.column rows = some (name, values)) :
    name = put.name.items ∧ values = put.values ∧ ColumnOk rows (stagedColumn (name, values)) ∧
      values.Ok rows := by
  simp only [Put.column, bind_eq_some_iff, ite_none_right_eq_some, Option.some.injEq, Prod.mk.injEq] at described
  rcases described with ⟨text, named, ⟨safe, present, readable⟩, rfl, rfl⟩
  rcases codecName_iff named with ⟨items, nonempty, short, utf8⟩
  have ok := put_values_ok safe present readable
  exact ⟨items, rfl, ⟨nonempty, short, utf8, (staged_canonical ok).1⟩, ok⟩

variable {encoder : CodecEncoder} {batch : List (Bytes × Values)}

theorem encodes_extend (encodes : encoder.Encodes batch) (entry : Bytes × Values)
    (ok : entry.2.Ok encoder.rows) (columnOk : ColumnOk encoder.rows (stagedColumn entry))
    (accepts : encoder.Accepts (stagedColumn entry)) :
    (encoder.extend (stagedColumn entry)).Encodes (batch ++ [entry]) := by
  have fresh : (stagedColumn entry).name ∉ encoder.columns.map CodecColumn.name := by
    intro member
    have found := (searchName_split encodes.indexed).2.2.mpr member
    rw [accepts.2.1] at found
    cases found
  constructor
  · exact encodes.indexed.extend _ fresh
  · constructor
    · exact encodes.admissible.rowsFit
    · change (encoder.columns ++ [stagedColumn entry]).length ≤ codecMaxColumns
      rw [length_append]
      exact accepts.1
    · exact accepts.2.2
    · change ((encoder.columns ++ [stagedColumn entry]).map CodecColumn.name).Nodup
      rw [map_append, nodup_append]
      refine ⟨encodes.admissible.distinct, nodup_singleton _, ?_⟩
      rintro name member _ (_ | ⟨_, ⟨⟩⟩) rfl
      exact fresh member
    · intro column member
      rcases mem_append.mp member with old | new
      · exact encodes.admissible.columnsOk column old
      · rw [mem_singleton.mp new]
        exact columnOk
  · rw [map_append, ← encodes.staged]
    rfl
  · intro other member
    rcases mem_append.mp member with old | new
    · exact encodes.ok other old
    · rw [mem_singleton.mp new]
      exact ok

theorem put_step (encodes : encoder.Encodes batch) (put : Put) :
    encoder.put put = (false, encoder) ∨
      ∃ after, encoder.put put = (true, after) ∧ after.rows = encoder.rows ∧
        after.Encodes (batch ++ [(put.name.items, put.values)]) := by
  rcases described : put.column encoder.rows with _ | ⟨name, values⟩
  · left
    rw [put_eq, described]
  have inserted : encoder.put put = codecInsert encoder (stagedColumn (name, values)) := by
    rw [put_eq, described]
    rfl
  rcases column_ok described with ⟨rfl, rfl, columnOk, ok⟩
  rw [inserted, codecInsert_eq]
  by_cases accepts : encoder.Accepts (stagedColumn (put.name.items, put.values))
  · right
    rw [if_pos accepts]
    exact ⟨_, rfl, rfl, encodes_extend encodes _ ok columnOk accepts⟩
  · left
    rw [if_neg accepts]

def CodecEncoder.putAll (encoder : CodecEncoder) (puts : List Put) : CodecEncoder :=
  puts.foldl (fun encoder put => (encoder.put put).2) encoder

/-- Names and values of the puts that report success, in order. -/
def CodecEncoder.accepted (encoder : CodecEncoder) : List Put → List (Bytes × Values)
  | [] => []
  | put :: rest =>
      if (encoder.put put).1 then
        (put.name.items, put.values) :: (encoder.put put).2.accepted rest
      else (encoder.put put).2.accepted rest

theorem putAll_encodes (puts : List Put) (encoder : CodecEncoder) (batch : List (Bytes × Values))
    (encodes : encoder.Encodes batch) :
    (encoder.putAll puts).rows = encoder.rows ∧
      (encoder.putAll puts).Encodes (batch ++ encoder.accepted puts) := by
  induction puts generalizing encoder batch with
  | nil =>
    rw [CodecEncoder.accepted, append_nil]
    exact ⟨rfl, encodes⟩
  | cons put rest ih =>
    rw [CodecEncoder.putAll, foldl_cons, CodecEncoder.accepted]
    rcases put_step encodes _ with refused | ⟨after, result, rows, encodes'⟩
    · rw [refused]
      exact ih encoder batch encodes
    · have later := ih after _ encodes'
      rw [List.append_assoc] at later
      rw [result]
      exact ⟨later.1.trans rows, later.2⟩

theorem finish_encodes (encodes : encoder.Encodes batch) :
    codecEncoderFinish encoder = some (envelope encoder.rows encoder.columns) := by
  have few := encodes.admissible.few
  rw [codecMaxColumns] at few
  exact codecEncoderFinish_eq (by omega)
    (fun column member => (encodes.admissible.columnsOk column member).shortName)
    encodes.admissible.fits

theorem exposed_encodes (encodes : encoder.Encodes batch) :
    codecOpen (envelope encoder.rows encoder.columns) = some () ∧
      exposed (envelope encoder.rows encoder.columns) = some (encoder.rows, batch) := by
  rcases codecOpen_complete _ _ encodes.admissible with ⟨opens, descriptors, header, table, same⟩
  refine ⟨opens, ?_⟩
  have read : encoder.columns.map (exposedColumn encoder.rows) = batch := by
    rw [encodes.staged, List.map_map]
    exact (map_congr_left fun entry member =>
      exposed_staged (encodes.ok entry member)).trans (List.map_id _)
  rw [exposed_eq header table, same, read]

theorem encodes_new {rows : Int64} (fresh : codecEncoderNew rows = some start) :
    start.rows = rows.toNatClampNeg ∧ start.Encodes [] := by
  rw [codecEncoderNew, ite_none_left_eq_some, Option.some.injEq] at fresh
  rcases fresh with ⟨-, rfl⟩
  have top := Int64.toInt_lt rows
  have value : rows.toNatClampNeg = rows.toInt.toNat := rfl
  refine ⟨rfl, ⟨List.Perm.refl _, List.Pairwise.nil⟩, ?_, rfl, ?_⟩
  · refine ⟨?_, Nat.zero_le _, ?_, nodup_nil, ?_⟩
    · change rows.toNatClampNeg < 2 ^ 63
      omega
    · change envelopeLen [] < 2 ^ 63
      decide
    · exact fun column member => absurd member not_mem_nil
  · exact fun entry member => absurd member not_mem_nil

def View.of {α : Type} (items : List α) : View α where
  ptr := some items
  len := items.length
  readable := by
    intro other same _
    rw [← Option.some.inj same]

theorem items_of (items : List α) : (View.of items).items = items := by
  cases items with
  | nil => rfl
  | cons item rest => rfl

theorem safeLen_of {n : Nat} (small : n < 2 ^ 63) : safeLen n = some n := by
  rw [safeLen, if_pos (by omega)]
  rfl

/-- The put that stages an exposed column. -/
def Put.of : Bytes × Values → Put
  | (name, .i64 values) => .fixed (View.of name) (.i64 (View.of values))
  | (name, .f64 values) => .fixed (View.of name) (.f64 (View.of values))
  | (name, .bool values) => .fixed (View.of name) (.bool (View.of (values.map boolByte)))
  | (name, .str cells) => .text (View.of name) (View.of (cells.map View.of))

variable (entry : Bytes × Values)

theorem put_of_name : (Put.of entry).name = View.of entry.1 := by
  rcases entry with ⟨name, values⟩
  cases values <;> rfl

theorem put_of_isNull : (Put.of entry).isNull = false := by
  rcases entry with ⟨name, values⟩
  cases values <;> rfl

theorem map_items_of (cells : List Bytes) : (cells.map View.of).map View.items = cells := by
  rw [List.map_map]
  exact (map_congr_left fun cell _ => items_of _).trans (List.map_id _)

theorem put_of_values : (Put.of entry).values = entry.2 := by
  rcases entry with ⟨name, values⟩
  cases values with
  | i64 values => exact congrArg Values.i64 (items_of _)
  | f64 values => exact congrArg Values.f64 (items_of _)
  | bool values =>
    change Values.bool ((View.of (values.map boolByte)).items.map fun value => decide (value ≠ 0)) = _
    rw [items_of, List.map_map]
    congr 1
    exact (map_congr_left fun value _ => boolByte_ne_zero _).trans (List.map_id _)
  | str cells =>
    change Values.str ((View.of (cells.map View.of)).items.map View.items) = _
    rw [items_of, map_items_of]

theorem put_of_len (rows : Nat) (small : rows < 2 ^ 63) (ok : entry.2.Ok rows) : safeLen (Put.of entry).len = some rows := by
  rcases entry with ⟨name, values⟩
  have size : (Put.of (name, values)).len = rows := by
    cases values with
    | i64 values | f64 values => exact congrArg Nat.cast ok
    | bool values => exact congrArg Nat.cast ((length_map _).trans ok)
    | str cells => exact congrArg Nat.cast ((length_map _).trans ok.1)
  rw [size, safeLen_of small]

theorem cellOk_of (small : cell.length < 2 ^ 31) (utf8 : isUtf8 cell = true) :
    CellOk (View.of cell) := by
  refine ⟨⟨cell.length, safeLen_of (by omega), ?_⟩, ?_⟩
  · rintro ⟨_, ⟨⟩⟩
  · rw [items_of]
    exact utf8

theorem put_of_readable (rows : Nat) (ok : entry.2.Ok rows) :
    (Put.of entry).readable = true := by
  rcases entry with ⟨name, values⟩
  cases values with
  | i64 values | f64 values | bool values => rfl
  | str cells =>
    rcases ok with ⟨_, small, utf8⟩
    have total : textTotal (cells.map View.of) = some cells.flatten.length := by
      rw [textTotal_iff, map_items_of]
      refine ⟨?_, rfl, small⟩
      intro view member
      rcases List.mem_map.mp member with ⟨cell, inside, rfl⟩
      have part : cell.length ≤ cells.flatten.length :=
        (sublist_flatten_of_mem inside).length_le
      exact cellOk_of (by omega) (utf8 cell inside)
    change (textTotal (View.of (cells.map View.of)).items).isSome = true
    rw [items_of, total]
    rfl

theorem put_of_column (small : rows < 2 ^ 63) (ok : entry.2.Ok rows)
    (named : entry.1 ≠ []) (short : entry.1.length < 2 ^ 32) (utf8 : isUtf8 entry.1 = true) : (Put.of entry).column rows = some entry := by
  have name : codecName (Put.of entry).name = some entry.1 := by
    rw [put_of_name, codecName]
    change (safeLen entry.1.length).bind _ = _
    have positive := length_pos_iff.mpr named
    rw [safeLen_of (by omega), bind_some, if_neg, items_of, if_pos utf8]
    rintro (zero | null | long)
    · omega
    · cases null
    · exact long short
  rw [Put.column, name, bind_some, put_of_values, if_pos]
  refine ⟨put_of_len _ _ small ok, ?_, put_of_readable _ _ ok⟩
  rintro ⟨_, null⟩
  rw [put_of_isNull] at null
  cases null

theorem envelopeLen_append :
    envelopeLen first ≤ envelopeLen (first ++ second) := by
  have names : namesEnd first ≤ namesEnd (first ++ second) := by
    rw [namesEnd, namesEnd, namesText_append, length_append, length_append, namesStart, namesStart,
      codecDescriptorLen]
    omega
  have start : dataStart first ≤ dataStart (first ++ second) := by
    rw [dataStart, dataStart, alignUp_eq, alignUp_eq]
    omega
  rw [envelopeLen, envelopeLen, areas_append, length_append]
  omega

theorem map_staged_exposed {columns : List CodecColumn} (canonical : ∀ column ∈ columns, ColumnOk rows column) :
    (columns.map (exposedColumn rows)).map stagedColumn = columns := by
  rw [List.map_map]
  exact (map_congr_left fun column member =>
    staged_exposed (canonical column member).canonical).trans (List.map_id _)

variable {rest : List CodecColumn}

theorem replay_step (admissible : Admissible encoder.rows (done ++ column :: rest))
    (encodes : encoder.Encodes (done.map (exposedColumn encoder.rows))) :
    (encoder.put (Put.of (exposedColumn encoder.rows column))).1 = true := by
  have held : encoder.columns = done := by
    rw [encodes.staged]
    exact map_staged_exposed fun other member =>
      admissible.columnsOk other (mem_append_left _ member)
  have columnOk := admissible.columnsOk column (mem_append_right _ mem_cons_self)
  have ok := (canonical_staged columnOk.canonical).1
  have described := put_of_column (exposedColumn encoder.rows column)
    admissible.rowsFit ok columnOk.named columnOk.shortName columnOk.utf8
  have same := staged_exposed columnOk.canonical
  have split : done ++ column :: rest = (done ++ [column]) ++ rest := by
    rw [List.append_assoc]
    rfl
  have accepts : encoder.Accepts column := by
    refine ⟨?_, ?_, ?_⟩
    · have few := admissible.few
      rw [length_append, length_cons] at few
      rw [held]
      omega
    · apply Bool.eq_false_iff.mpr
      intro found
      have member := (searchName_split encodes.indexed).2.2.mp found
      have distinct := admissible.distinct
      rw [map_append, map_cons, nodup_append] at distinct
      rw [held] at member
      exact distinct.2.2 _ member _ mem_cons_self rfl
    · rw [held]
      have fits := admissible.fits
      rw [split] at fits
      exact Nat.lt_of_le_of_lt (envelopeLen_append) fits
  have inserted : encoder.put (Put.of (exposedColumn encoder.rows column)) =
    codecInsert encoder (stagedColumn (exposedColumn encoder.rows column)) := by
    rw [put_eq, described]
    rfl
  rw [inserted, same, codecInsert_eq, if_pos accepts]

theorem replay_accepts (done : List CodecColumn) (encoder : CodecEncoder)
    (admissible : Admissible encoder.rows (done ++ rest))
    (encodes : encoder.Encodes (done.map (exposedColumn encoder.rows))) :
    encoder.accepted ((rest.map (exposedColumn encoder.rows)).map Put.of) =
      rest.map (exposedColumn encoder.rows) := by
  induction rest generalizing done encoder with
  | nil => rfl
  | cons column rest ih =>
    have success := replay_step admissible encodes
    rw [map_cons, map_cons, CodecEncoder.accepted, if_pos success, put_of_name, put_of_values, items_of]
    rcases put_step encodes _ with
      refused | ⟨after, result, rows, encodes'⟩
    · rw [refused] at success
      cases success
    rw [put_of_name, put_of_values, items_of, ← rows] at encodes'
    rw [result]
    have later := ih (done ++ [column]) after (by rw [rows, List.append_assoc]; exact admissible)
      (by rw [map_append]; exact encodes')
    rw [rows] at later
    exact congrArg _ later

/-- Encoder and validator are inverse. A refused put changes nothing; after any
puts the bytes of `finish` have the computed length, are accepted, and expose the
accepted columns; and an accepted envelope is what the encoder writes for the
columns it exposes. -/
theorem envelope_canonical :
    (∀ (encoder : CodecEncoder) (put : Put),
      (encoder.put put).1 = false → (encoder.put put).2 = encoder) ∧
    (∀ (rows : Int64) (start : CodecEncoder) (puts : List Put),
      codecEncoderNew rows = some start →
      ∃ bytes, codecEncoderFinish (start.putAll puts) = some bytes ∧
        codecOutputLen (start.putAll puts).columns none = some bytes.length ∧
        codecOpen bytes = some () ∧
        exposed bytes = some (rows.toNatClampNeg, start.accepted puts)) ∧
    (∀ input : Bytes, codecOpen input = some () →
      ∃ (rows : Int64) (start : CodecEncoder) (batch : List (Bytes × Values)),
        exposed input = some (rows.toNatClampNeg, batch) ∧ codecEncoderNew rows = some start ∧
        start.accepted (batch.map Put.of) = batch ∧
        codecEncoderFinish (start.putAll (batch.map Put.of)) = some input) := by
  refine ⟨?_, ?_, ?_⟩
  · intro encoder put refused
    rw [put_eq] at refused ⊢
    rcases described : put.column encoder.rows with _ | entry
    · rfl
    rw [described] at refused
    dsimp only at refused ⊢
    rw [codecInsert_eq] at refused ⊢
    by_cases accepts : encoder.Accepts ⟨entry.1, stagedData entry.2⟩
    · rw [if_pos accepts] at refused
      cases refused
    · rw [if_neg accepts]
  · intro rows start puts fresh
    rcases encodes_new fresh with ⟨rowCount, empty⟩
    rcases putAll_encodes puts start [] empty with ⟨kept, encodes⟩
    rw [nil_append] at encodes
    rcases exposed_encodes encodes with ⟨opens, read⟩
    refine ⟨_, finish_encodes encodes, ?_, opens, ?_⟩
    · rw [codecOutputLen_none, envelope_length, codecUsize, if_pos encodes.admissible.fits]
    · rw [read, kept, rowCount]
  · intro input accepted
    rcases codecOpen_sound accepted with ⟨rows, descriptors, header, table, admissible, same⟩
    have count : (Int64.ofNat rows).toNatClampNeg = rows :=
      Int64.toNatClampNeg_ofNat_of_lt admissible.rowsFit
    have fresh : codecEncoderNew (Int64.ofNat rows) = some ⟨rows, [], []⟩ := by
      rw [codecEncoderNew, if_neg, count]
      rw [Int64.lt_iff_toInt_lt, Int64.toInt_ofNat_of_lt admissible.rowsFit]
      exact Int.not_lt.mpr (Int.natCast_nonneg rows)
    rcases encodes_new fresh with ⟨_, empty⟩
    have replay := replay_accepts [] ⟨rows, [], []⟩ admissible empty
    refine ⟨Int64.ofNat rows, ⟨rows, [], []⟩,
      (descriptors.map (columnOf input)).map (exposedColumn rows), ?_, fresh, replay, ?_⟩
    · rw [count]
      exact exposed_eq header table
    · rcases putAll_encodes (((descriptors.map (columnOf input)).map (exposedColumn rows)).map
        Put.of) ⟨rows, [], []⟩ [] empty with ⟨kept, encodes⟩
      rw [nil_append, replay] at encodes
      have columns := encodes.staged.trans (map_staged_exposed admissible.columnsOk)
      rw [finish_encodes encodes, columns, kept, ← same]

end Align.Columnar
