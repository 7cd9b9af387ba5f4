import Align.Columnar

/-! The envelope as one concatenation, and the encoder's writes as a way to
fill it in. The length check and the running cursors of the encoder are the
lengths of its parts. -/
namespace Align.Columnar
open Codec Segments List Option

theorem zeros_add (a b : Nat) : zeros (a + b) = zeros a ++ zeros b := by
  rw [zeros, zeros, zeros, replicate_append_replicate]

@[simp] theorem zeros_length (count : Nat) : (zeros count).length = count := length_replicate

/-- The zero bytes up to the next multiple of eight. -/
def padLen (n : Nat) : Nat := (8 - n % 8) % 8

def padded (bytes : Bytes) : Bytes := bytes ++ zeros (padLen bytes.length)

def alignUp (n : Nat) : Nat := n + padLen n

theorem alignUp_eq (n : Nat) : alignUp n = (n + 7) / 8 * 8 := by
  rw [alignUp, padLen]
  omega

theorem alignUp_mod (n : Nat) : alignUp n % 8 = 0 := by
  rw [alignUp_eq]
  omega

theorem padded_length (bytes : Bytes) : (padded bytes).length = alignUp bytes.length := by
  rw [padded, length_append, zeros_length, alignUp]

theorem alignUp_add (len : Nat) (aligned : cursor % 8 = 0) :
    alignUp (cursor + len) = cursor + alignUp len := by
  simp only [alignUp, padLen]
  omega

def nameHalf (column : CodecColumn) (nameCursor : Nat) : Bytes :=
  toLe 8 nameCursor ++ (toLe 4 column.name.length ++ ([column.kind.tag] ++ zeros 3))

def columnArea (column : CodecColumn) : Bytes :=
  padded column.buffers.1 ++ (column.buffers.2.map padded).getD []

def describeOne (column : CodecColumn) (nameCursor dataCursor : Nat) : CodecDescriptor where
  nameOffset := nameCursor
  nameLen := column.name.length
  kind := column.kind
  dataOffset := dataCursor
  dataLen := column.buffers.1.length
  auxOffset := if column.buffers.2.isSome then dataCursor + alignUp column.buffers.1.length else 0
  auxLen := (column.buffers.2.getD []).length

def describe : List CodecColumn → Nat → Nat → List CodecDescriptor
  | [], _, _ => []
  | column :: rest, nameCursor, dataCursor =>
      describeOne column nameCursor dataCursor ::
        describe rest (nameCursor + column.name.length) (dataCursor + (columnArea column).length)

def dataHalf (d : CodecDescriptor) : Bytes :=
  toLe 8 d.dataOffset ++ (toLe 8 d.dataLen ++ (toLe 8 d.auxOffset ++ toLe 8 d.auxLen))

def descriptorBytes (d : CodecDescriptor) : Bytes :=
  toLe 8 d.nameOffset ++ (toLe 4 d.nameLen ++ ([d.kind.tag] ++ (zeros 3 ++ dataHalf d)))

def namesText (columns : List CodecColumn) : Bytes := columns.flatMap CodecColumn.name

def areas (columns : List CodecColumn) : Bytes := columns.flatMap columnArea

def namesStart (count : Nat) : Nat := codecHeaderLen + count * codecDescriptorLen

def namesEnd (columns : List CodecColumn) : Nat :=
  namesStart columns.length + (namesText columns).length

def dataStart (columns : List CodecColumn) : Nat := alignUp (namesEnd columns)

def envelopeLen (columns : List CodecColumn) : Nat :=
  dataStart columns + (areas columns).length

def header (total rows count : Nat) : Bytes :=
  codecMagic ++ (toLe 8 total ++ (toLe 8 rows ++ (toLe 4 count ++ zeros 4)))

def envelope (rows : Nat) (columns : List CodecColumn) : Bytes :=
  header (envelopeLen columns) rows columns.length ++
    ((describe columns (namesStart columns.length) (dataStart columns)).flatMap descriptorBytes ++
      (namesText columns ++ (zeros (padLen (namesEnd columns)) ++ areas columns)))

@[simp] theorem descriptorBytes_length (d : CodecDescriptor) : (descriptorBytes d).length = 48 := by
  simp [descriptorBytes, dataHalf]

theorem describe_length (columns : List CodecColumn) (nameCursor dataCursor : Nat) :
    (describe columns nameCursor dataCursor).length = columns.length := by
  induction columns generalizing nameCursor dataCursor with
  | nil => rfl
  | cons column rest ih => rw [describe, length_cons, ih, length_cons]

theorem table_length (descriptors : List CodecDescriptor) :
    (descriptors.flatMap descriptorBytes).length = descriptors.length * 48 :=
  flatMap_length _ descriptorBytes_length _

theorem header_length (total rows count : Nat) : (header total rows count).length = 32 := by
  simp [header, codecMagic]

variable (rows : Nat) (columns : List CodecColumn)

theorem envelope_length :
    (envelope rows columns).length = envelopeLen columns := by
  simp only [envelope, length_append, header_length, table_length, describe_length, zeros_length,
    envelopeLen, dataStart, alignUp, namesEnd, namesStart, codecHeaderLen, codecDescriptorLen]
  omega

theorem checked_bind (a : Nat) (grow : Nat → Nat) (inflates : ∀ x, x ≤ grow x) :
    ((checked a).bind fun x => checked (grow x)) = checked (grow a) := by
  by_cases fits : a < 2 ^ 64
  · rw [checked, if_pos fits]
    rfl
  have above : ¬ grow a < 2 ^ 64 := by
    have := inflates a
    omega
  rw [checked, if_neg fits, checked, if_neg above]
  rfl

theorem codecAlign8_eq (value : Nat) : codecAlign8 value = checked (alignUp value) := by
  rw [codecAlign8, checkedAdd, checked, checked, alignUp_eq]
  by_cases fits : value + 7 < 2 ^ 64
  · rw [if_pos fits, if_pos (by omega)]
    rfl
  · rw [if_neg fits, if_neg (by omega)]
    rfl

theorem alignUp_le (n : Nat) : n ≤ alignUp n := Nat.le_add_right _ _

theorem align_step (n : Nat) : (checked n).bind codecAlign8 = checked (alignUp n) := by
  rw [← checked_bind n _ alignUp_le]
  congr 1
  funext x
  exact codecAlign8_eq x

theorem pad_step (aligned : cursor % 8 = 0) :
    (checkedAdd cursor len).bind codecAlign8 = checked (cursor + alignUp len) := by
  rw [checkedAdd, align_step, alignUp_add _ aligned]

def areaLen (dataLen : Nat) (auxLen : Option Nat) : Nat :=
  alignUp dataLen + (auxLen.map alignUp).getD 0

theorem areaLen_mod (dataLen : Nat) (auxLen : Option Nat) : areaLen dataLen auxLen % 8 = 0 := by
  have first := alignUp_mod dataLen
  cases auxLen with
  | none => simpa [areaLen] using first
  | some len =>
    have second := alignUp_mod len
    simp only [areaLen, map_some, getD_some]
    omega

theorem columnArea_length (column : CodecColumn) :
    (columnArea column).length =
      areaLen column.buffers.1.length (column.buffers.2.map List.length) := by
  rw [columnArea, length_append, padded_length, areaLen]
  cases column.buffers.2 with
  | none => rfl
  | some aux => exact congrArg _ (padded_length _)

theorem columnArea_aligned (column : CodecColumn) : (columnArea column).length % 8 = 0 := by
  rw [columnArea_length]
  exact areaLen_mod _ _

theorem areas_aligned : (areas columns).length % 8 = 0 := by
  induction columns with
  | nil => rfl
  | cons column rest ih =>
    have area := columnArea_aligned column
    rw [areas, flatMap_cons, length_append]
    change ((columnArea column).length + (areas rest).length) % 8 = 0
    omega

theorem advance_eq (aligned : cursor % 8 = 0) :
    advance cursor dataLen auxLen = checked (cursor + areaLen dataLen auxLen) := by
  have step := alignUp_mod dataLen
  rw [advance, pad_step aligned]
  cases auxLen with
  | none =>
    exact bind_fun_some _
  | some len =>
    have next : ((checked (cursor + alignUp dataLen)).bind fun cursor =>
      (checkedAdd cursor len).bind codecAlign8) =
      (checked (cursor + alignUp dataLen)).bind fun x => checked (x + alignUp len) := by
      rw [checked]
      split
      · exact pad_step (by omega)
      · rfl
    rw [areaLen, map_some, getD_some, ← Nat.add_assoc,
      ← checked_bind _ (· + alignUp len) (fun x => Nat.le_add_right x _)]
    exact next

theorem parts_fold {unit : Nat} (step : Nat → CodecColumn → Option Nat) (part : CodecColumn → Bytes)
    (whole : ∀ column, (part column).length % unit = 0)
    (moves : ∀ cursor column, cursor % unit = 0 → step cursor column = checked (cursor + (part column).length))
    (start : Nat) (aligned : start % unit = 0) :
    ((checked start).bind fun cursor => columns.foldlM step cursor) =
      checked (start + (columns.flatMap part).length) := by
  induction columns generalizing start with
  | nil => exact bind_fun_some _
  | cons column rest ih =>
    have next : (start + (part column).length) % unit = 0 := by
      rw [Nat.add_mod, aligned, whole, Nat.zero_add, Nat.zero_mod]
    rw [flatMap_cons, length_append, ← Nat.add_assoc, ← ih _ next,
      ← checked_bind _ _ (fun x => Nat.le_add_right x _), bind_assoc, checked]
    split
    · rw [bind_some, bind_some, foldlM_cons, moves _ _ aligned]
      rfl
    · rfl

theorem names_fold (start : Nat) :
    ((checked start).bind fun cursor =>
      columns.foldlM (fun cursor column => checkedAdd cursor column.name.length) cursor) =
      checked (start + (namesText columns).length) :=
  parts_fold _ _ _ (fun _ => Nat.mod_one _) (fun _ _ _ => rfl) _ (Nat.mod_one _)

theorem areas_fold (start : Nat) (aligned : start % 8 = 0) :
    ((checked start).bind fun cursor => columns.foldlM (fun cursor column =>
      advance cursor column.buffers.1.length (column.buffers.2.map List.length)) cursor) =
      checked (start + (areas columns).length) :=
  parts_fold _ _ _ columnArea_aligned
    (fun _ column here => by rw [advance_eq here, columnArea_length]) _ aligned

theorem checked_codecUsize : (checked n).bind codecUsize = codecUsize n := by
  rw [checked, codecUsize]
  split
  · rfl
  · rw [if_neg (by omega)]
    rfl

/-- The sum the length check computes, with one more column or none. -/
def partsLen (columns : List CodecColumn) (candidate : Option (Nat × Nat × Option Nat)) : Nat :=
  alignUp (namesStart (columns.length + if candidate.isSome then 1 else 0) +
      (namesText columns).length + (candidate.map (·.1)).getD 0) +
    (areas columns).length + (candidate.map fun c => areaLen c.2.1 c.2.2).getD 0

theorem table_step (count : Nat) :
    (checkedMul count codecDescriptorLen).bind (checkedAdd codecHeaderLen) =
      checked (namesStart count) :=
  checked_bind _ _ fun x => Nat.le_add_left x _

theorem codecOutputLenParts_eq (candidate : Option (Nat × Nat × Option Nat)) :
    codecOutputLenParts columns candidate = codecUsize (partsLen columns candidate) := by
  have aligned := areas_aligned columns
  have flat : codecOutputLenParts columns candidate =
    ((((((checkedAdd columns.length (if candidate.isSome then 1 else 0)).bind fun count =>
      (checkedMul count codecDescriptorLen).bind (checkedAdd codecHeaderLen)).bind fun cursor =>
        columns.foldlM (fun cursor column => checkedAdd cursor column.name.length) cursor).bind
      fun cursor => candidate.elim (some cursor) fun parts => checkedAdd cursor parts.1).bind
        codecAlign8).bind fun cursor =>
        columns.foldlM (fun cursor column =>
          advance cursor column.buffers.1.length (column.buffers.2.map List.length)) cursor).bind
      fun cursor => (candidate.elim (some cursor) fun parts =>
        advance cursor parts.2.1 parts.2.2).bind codecUsize := by
    simp only [codecOutputLenParts, bind, bind_assoc]
    cases candidate <;> rfl
  have count : ((checkedAdd columns.length (if candidate.isSome then 1 else 0)).bind fun count =>
    (checkedMul count codecDescriptorLen).bind (checkedAdd codecHeaderLen)) =
    checked (namesStart (columns.length + if candidate.isSome then 1 else 0)) := by
    simp only [table_step]
    exact checked_bind _ _ fun x => by rw [namesStart, codecDescriptorLen]; omega
  rw [flat, count, names_fold]
  cases candidate with
  | none =>
    have same : partsLen columns none = alignUp (namesStart (columns.length + 0) +
      (namesText columns).length) + (areas columns).length := rfl
    simp only [isSome_none, Bool.false_eq_true, ↓reduceIte, Option.elim, bind_some, bind_fun_some]
    rw [align_step, areas_fold _ _ (alignUp_mod _), same]
    exact checked_codecUsize
  | some parts =>
    rcases parts with ⟨nameLen, dataLen, auxLen⟩
    have same : partsLen columns (some (nameLen, dataLen, auxLen)) =
      alignUp (namesStart (columns.length + 1) + (namesText columns).length + nameLen) +
        (areas columns).length + areaLen dataLen auxLen := rfl
    have named := checked_bind (namesStart (columns.length + 1) + (namesText columns).length)
      (· + nameLen) fun x => Nat.le_add_right x _
    have base := alignUp_mod (namesStart (columns.length + 1) + (namesText columns).length + nameLen)
    simp only [isSome_some, ↓reduceIte, Option.elim]
    change ((((checked _).bind fun x => checked (x + nameLen)).bind codecAlign8).bind _).bind _ = _
    rw [named, align_step, areas_fold _ _ base, same, checked]
    split
    · rw [bind_some, advance_eq (by omega)]
      exact checked_codecUsize
    · rw [codecUsize, if_neg (by omega)]
      rfl

theorem codecOutputLen_none :
    codecOutputLen columns none = codecUsize (envelopeLen columns) :=
  codecOutputLenParts_eq _ _

theorem namesText_append (first second : List CodecColumn) :
    namesText (first ++ second) = namesText first ++ namesText second := flatMap_append

theorem areas_append (first second : List CodecColumn) :
    areas (first ++ second) = areas first ++ areas second := flatMap_append

variable (columns : List CodecColumn) (column : CodecColumn)

theorem codecOutputLen_some :
    codecOutputLen columns (some column) = codecUsize (envelopeLen (columns ++ [column])) := by
  have names : namesText [column] = column.name := append_nil _
  have area : areas [column] = columnArea column := append_nil _
  rw [codecOutputLen, codecOutputLenParts_eq]
  congr 1
  simp only [partsLen, map_some, isSome_some, ↓reduceIte, getD_some, ← columnArea_length, envelopeLen,
    dataStart, namesEnd, namesText_append, areas_append, names, area, length_append, length_cons,
    length_nil, Nat.add_assoc]

def nameHalves : List CodecColumn → Nat → List Bytes
  | [], _ => []
  | column :: rest, nameCursor =>
      nameHalf column nameCursor :: nameHalves rest (nameCursor + column.name.length)

/-- The descriptor table after the names have been written. -/
def halfTable (columns : List CodecColumn) (nameCursor : Nat) : Bytes :=
  (nameHalves columns nameCursor).flatMap (· ++ zeros 32)

theorem store_zeros {data : Bytes} (before after : Bytes) (room : Nat)
    (shape : items = before ++ (zeros room ++ after)) (here : start = before.length) (fits : data.length ≤ room) :
    store items start data = some (before ++ (data ++ (zeros (room - data.length) ++ after))) := by
  refine store_part ?_ here (zeros_length _)
  rw [shape, ← List.append_assoc (zeros data.length), ← zeros_add, Nat.add_sub_cancel' fits]

theorem halfTable_cons (rest : List CodecColumn) (nameCursor : Nat) :
    halfTable (column :: rest) nameCursor = nameHalf column nameCursor ++
      (zeros 32 ++ halfTable rest (nameCursor + column.name.length)) := by
  rfl

theorem writeNames_eq (before middle : Bytes) (room : Nat) (descriptor nameCursor : Nat)
    (table : descriptor = before.length)
    (cursor : nameCursor = before.length + columns.length * 48 + middle.length)
    (fits : (namesText columns).length ≤ room) (short : ∀ c ∈ columns, c.name.length < 2 ^ 32) :
    writeNames columns descriptor nameCursor
        (before ++ (zeros (columns.length * 48) ++ (middle ++ zeros room))) =
      some (nameCursor + (namesText columns).length,
        before ++ (halfTable columns nameCursor ++
          (middle ++ (namesText columns ++ zeros (room - (namesText columns).length))))) := by
  induction columns generalizing before middle room descriptor nameCursor with
  | nil => simp [writeNames, halfTable, nameHalves, namesText, zeros]
  | cons column rest ih =>
    have text : namesText (column :: rest) = column.name ++ namesText rest := rfl
    rw [text, length_append] at fits
    have left : (rest.length + 1) * 48 - 8 - 4 - 1 = 3 + (32 + rest.length * 48) := by omega
    simp only [writeNames, short column mem_cons_self, not_true_eq_false, ↓reduceIte, bind_eq_bind]
    -- the three fields of the descriptor, then the name at its cursor
    refine bind_eq_some_iff.mpr ⟨_, store_zeros _ _ _ rfl table (by simp; omega), ?_⟩
    refine bind_eq_some_iff.mpr ⟨_, store_zeros _ _ _ (List.append_assoc _ _ _).symm (by simp [table]) (by simp; omega), ?_⟩
    refine bind_eq_some_iff.mpr ⟨_, store_zeros _ _ _ (List.append_assoc _ _ _).symm (by simp [table]) (by simp; omega), ?_⟩
    simp only [toLe_length, length_cons, length_nil, Nat.zero_add, left, zeros_add 3, zeros_add _]
    refine bind_eq_some_iff.mpr ⟨_, store_zeros (before ++ (nameHalf column nameCursor ++ (zeros 32 ++
      (zeros (rest.length * 48) ++ middle)))) [] room (by simp [nameHalf]) (by simp [nameHalf, cursor]; omega)
      (by omega), ?_⟩
    have next := ih (before ++ (nameHalf column nameCursor ++ zeros 32)) (middle ++ column.name)
      (room - column.name.length) (descriptor + codecDescriptorLen)
      (nameCursor + column.name.length) (by simp [table, nameHalf, codecDescriptorLen])
      (by simp [cursor, nameHalf]; omega) (by omega)
      fun c member => short c (mem_cons_of_mem column member)
    simp only [List.append_assoc, append_nil] at next ⊢
    rw [next, text, halfTable_cons, length_append, Nat.sub_sub, Nat.add_assoc]
    simp only [List.append_assoc]

theorem nameHalf_length (nameCursor : Nat) :
    (nameHalf column nameCursor).length = 16 := by
  simp [nameHalf]

theorem descriptorBytes_describeOne (nameCursor dataCursor : Nat) :
    descriptorBytes (describeOne column nameCursor dataCursor) =
      nameHalf column nameCursor ++ dataHalf (describeOne column nameCursor dataCursor) := by
  simp only [descriptorBytes, nameHalf, describeOne, List.append_assoc]

theorem writeBuffers_eq (nameCursor : Nat) (before middle : Bytes) (room : Nat)
    (descriptor : Nat) (table : descriptor + 16 = before.length)
    (cursor : dataCursor = before.length + 32 + middle.length) (aligned : dataCursor % 8 = 0)
    (fits : (columnArea column).length ≤ room) (small : dataCursor + room < 2 ^ 64) :
    writeBuffers column descriptor dataCursor (before ++ (zeros 32 ++ (middle ++ zeros room))) =
      some (dataCursor + (columnArea column).length,
        before ++ (dataHalf (describeOne column nameCursor dataCursor) ++
          (middle ++ (columnArea column ++ zeros (room - (columnArea column).length))))) := by
  have area := columnArea_length column
  rw [areaLen] at area
  have pad : ∀ n, alignUp n = n + padLen n := fun _ => rfl
  generalize data : column.buffers.1 = bytes at area
  have whole := pad bytes.length
  have step : (checkedAdd dataCursor bytes.length).bind codecAlign8 = some (dataCursor + alignUp bytes.length) := by
    rw [pad_step aligned, checked, if_pos (by omega)]
  have rest : room - bytes.length = padLen bytes.length + (room - alignUp bytes.length) := by omega
  simp only [writeBuffers, data, bind_eq_bind]
  refine bind_eq_some_iff.mpr ⟨_, store_zeros _ _ _ rfl table (by simp), ?_⟩
  refine bind_eq_some_iff.mpr ⟨_, store_zeros _ _ _ (List.append_assoc _ _ _).symm (by simp; omega) (by simp), ?_⟩
  refine bind_eq_some_iff.mpr ⟨_, store_zeros (before ++ (toLe 8 dataCursor ++ (toLe 8 bytes.length ++
    (zeros 16 ++ middle)))) [] room (by simp) (by simp; omega) (by omega), ?_⟩
  simp only [step, bind_some, rest, zeros_add]
  rcases stored : column.buffers.2 with _ | aux
  · have half : zeros 16 = toLe 8 0 ++ toLe 8 0 := rfl
    rw [area]
    simp [columnArea, padded, dataHalf, describeOne, stored, data, half]
  simp only [stored, map_some, getD_some] at area
  have whole' := pad aux.length
  have multiple := alignUp_mod bytes.length
  have step' : (checkedAdd (dataCursor + alignUp bytes.length) aux.length).bind codecAlign8 =
    some (dataCursor + alignUp bytes.length + alignUp aux.length) := by
    rw [pad_step (by omega), checked, if_pos (by omega)]
  have rest' : room - alignUp bytes.length - aux.length =
    padLen aux.length + (room - (alignUp bytes.length + alignUp aux.length)) := by omega
  refine bind_eq_some_iff.mpr ⟨_, store_zeros (before ++ (toLe 8 dataCursor ++ toLe 8 bytes.length))
    (middle ++ (bytes ++ (zeros (padLen bytes.length) ++ zeros (room - alignUp bytes.length))))
    16 (by simp) (by simp; omega) (by simp), ?_⟩
  refine bind_eq_some_iff.mpr ⟨_, store_zeros (before ++ (toLe 8 dataCursor ++ (toLe 8 bytes.length ++
    toLe 8 (dataCursor + alignUp bytes.length))))
    (middle ++ (bytes ++ (zeros (padLen bytes.length) ++ zeros (room - alignUp bytes.length))))
    8 (by simp) (by simp; omega) (by simp), ?_⟩
  refine bind_eq_some_iff.mpr ⟨_, store_zeros (before ++ (toLe 8 dataCursor ++ (toLe 8 bytes.length ++
    (toLe 8 (dataCursor + alignUp bytes.length) ++ (toLe 8 aux.length ++ (middle ++ padded bytes)))))) []
    (room - alignUp bytes.length) (by simp [padded, zeros]) (by simp [padded_length]; omega) (by omega), ?_⟩
  rw [area]
  simp [step', rest', zeros_add, columnArea, padded, dataHalf, describeOne, stored, data, Nat.add_assoc]

theorem halfTable_length (nameCursor : Nat) :
    (halfTable columns nameCursor).length = columns.length * 48 := by
  induction columns generalizing nameCursor with
  | nil => rfl
  | cons column rest ih =>
    rw [halfTable_cons, length_append, length_append, nameHalf_length, zeros_length, ih, length_cons]
    omega

theorem dataHalf_length (d : CodecDescriptor) : (dataHalf d).length = 32 := by
  simp [dataHalf]

theorem writeData_eq (nameCursor : Nat) (before middle : Bytes) (room descriptor dataCursor : Nat)
    (table : descriptor = before.length)
    (cursor : dataCursor = before.length + columns.length * 48 + middle.length)
    (aligned : dataCursor % 8 = 0) (fits : (areas columns).length ≤ room) (small : dataCursor + room < 2 ^ 64) :
    writeData columns descriptor dataCursor
        (before ++ (halfTable columns nameCursor ++ (middle ++ zeros room))) =
      some (dataCursor + (areas columns).length,
        before ++ ((describe columns nameCursor dataCursor).flatMap descriptorBytes ++
          (middle ++ (areas columns ++ zeros (room - (areas columns).length))))) := by
  induction columns generalizing nameCursor before middle room descriptor dataCursor with
  | nil => simp [writeData, halfTable, nameHalves, describe, areas]
  | cons column rest ih =>
    have text : areas (column :: rest) = columnArea column ++ areas rest := rfl
    have multiple := columnArea_aligned column
    have table' := halfTable_length rest (nameCursor + column.name.length)
    rw [text, length_append] at fits
    have less : room - (columnArea column).length - (areas rest).length =
      room - ((columnArea column).length + (areas rest).length) := by omega
    have first := writeBuffers_eq column nameCursor (before ++ nameHalf column nameCursor)
      (halfTable rest (nameCursor + column.name.length) ++ middle) room descriptor
      (by rw [length_append, nameHalf_length, table])
      (by
        rw [cursor, length_append, length_append, nameHalf_length, table', length_cons]
        omega)
      aligned (by omega) small
    have next := ih (nameCursor + column.name.length) (before ++ (nameHalf column nameCursor ++
      dataHalf (describeOne column nameCursor dataCursor))) (middle ++ columnArea column)
      (room - (columnArea column).length) (descriptor + codecDescriptorLen)
      (dataCursor + (columnArea column).length)
      (by rw [length_append, length_append, nameHalf_length, dataHalf_length, table]; rfl)
      (by
        rw [cursor, length_append, length_append, length_append, nameHalf_length, dataHalf_length,
          length_cons]
        omega)
      (by omega) (by omega) (by omega)
    simp only [List.append_assoc] at first next
    rw [halfTable_cons, writeData]
    simp only [List.append_assoc]
    rw [first, bind_some, next, text, length_append, less, Nat.add_assoc, describe, flatMap_cons,
      descriptorBytes_describeOne]
    simp only [List.append_assoc]

theorem codecEncoderFinish_eq (count : encoder.columns.length < 2 ^ 32)
    (short : ∀ c ∈ encoder.columns, c.name.length < 2 ^ 32) (small : envelopeLen encoder.columns < 2 ^ 63) :
    codecEncoderFinish encoder = some (envelope encoder.rows encoder.columns) := by
  generalize shape : encoder.columns = columns at count short small ⊢
  have total : codecOutputLen columns none = some (envelopeLen columns) := by
    rw [codecOutputLen_none, codecUsize, if_pos small]
  have start : namesStart columns.length = 32 + columns.length * 48 := rfl
  have stop : namesEnd columns = namesStart columns.length + (namesText columns).length := rfl
  have first : dataStart columns = namesEnd columns + padLen (namesEnd columns) := rfl
  have whole : envelopeLen columns = dataStart columns + (areas columns).length := rfl
  have size := header_length (envelopeLen columns) encoder.rows columns.length
  have magic : codecMagic.length = 8 := rfl
  have names := writeNames_eq _ _ []
    (envelopeLen columns - namesStart columns.length) codecHeaderLen (namesStart columns.length) size.symm
    (by rw [size]; rfl) (by omega) short
  have data := writeData_eq _ (namesStart columns.length)
    _
    (namesText columns ++ zeros (padLen (namesEnd columns))) (areas columns).length codecHeaderLen
    (dataStart columns) size.symm (by simp [size]; omega) (alignUp_mod _) (Nat.le_refl _) (by omega)
  have align : codecAlign8 (namesEnd columns) = some (dataStart columns) := by
    rw [codecAlign8_eq, checked]
    exact if_pos (by have : alignUp (namesEnd columns) = dataStart columns := rfl; omega)
  have table : envelopeLen columns - 8 - 8 - 8 - 4 =
    4 + (columns.length * 48 + (envelopeLen columns - namesStart columns.length)) := by omega
  have left : envelopeLen columns - namesStart columns.length - (namesText columns).length =
    padLen (namesEnd columns) + (areas columns).length := by omega
  have from_ : codecHeaderLen + columns.length * codecDescriptorLen = namesStart columns.length := rfl
  simp only [codecEncoderFinish, shape, total, count, not_true_eq_false, ↓reduceIte, bind_eq_bind,
    bind_some, from_]
  refine bind_eq_some_iff.mpr ⟨_, store_zeros [] [] (envelopeLen columns) (by simp) rfl (by omega), ?_⟩
  refine bind_eq_some_iff.mpr ⟨_, store_zeros _ _ _ rfl rfl (by simp; omega), ?_⟩
  refine bind_eq_some_iff.mpr ⟨_, store_zeros _ _ _ (List.append_assoc _ _ _).symm (by simp [magic]) (by simp; omega), ?_⟩
  refine bind_eq_some_iff.mpr ⟨_, store_zeros _ _ _ (List.append_assoc _ _ _).symm (by simp [magic]) (by simp; omega), ?_⟩
  simp only [header, left, zeros_add, List.append_assoc, nil_append] at names data
  simp only [toLe_length, magic, table, zeros_add, List.append_assoc, append_nil]
  rw [names, bind_some, ← stop, align, bind_some, data, bind_some, if_neg (not_not.mpr whole.symm)]
  simp [envelope, header, zeros]

end Align.Columnar
