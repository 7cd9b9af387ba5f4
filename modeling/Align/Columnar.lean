import Align.Codec
import Align.MergePasses
import Align.Segments

/-! The columnar batch envelope: a staging encoder and an allocation-free
validator. The encoder keeps one column after another and writes the whole
envelope at the end into a zeroed buffer of the length computed first; a write
outside it, and every abort, is no result. The validator reads the same fields
back in six stages; `none` is its single error. Words are 64 bits wide, and
integers and floats are kept as their bit patterns. -/
namespace Align.Columnar
open Codec Segments MergePasses

abbrev Bytes := List UInt8

def zeros (count : Nat) : Bytes := List.replicate count 0

/-- `std::str::from_utf8(..).is_ok()`. -/
def isUtf8 (bytes : Bytes) : Bool := bytes.toByteArray.validateUTF8

def codecMagic : Bytes := [0x41, 0x4C, 0x4E, 0x43, 0x4F, 0x4C, 0x30, 0x31]

def codecHeaderLen : Nat := 32

def codecDescriptorLen : Nat := 48

def codecMaxColumns : Nat := 1024

def checked (n : Nat) : Option Nat := if n < 2 ^ 64 then some n else none

def checkedAdd (a b : Nat) : Option Nat := checked (a + b)

def checkedMul (a b : Nat) : Option Nat := checked (a * b)

def codecAlign8 (value : Nat) : Option Nat := (checkedAdd value 7).map fun v => v / 8 * 8

/-- A word that is also an `isize`. -/
def codecUsize (value : Nat) : Option Nat := if value < 2 ^ 63 then some value else none

def codecReadWord (width : Nat) (input : Bytes) (offset : Nat) : Option Nat :=
  if offset + width ≤ input.length then some (ofLe (slice input offset (offset + width))) else none

def codecReadU32 (input : Bytes) (offset : Nat) : Option Nat := codecReadWord 4 input offset

def codecReadU64 (input : Bytes) (offset : Nat) : Option Nat := codecReadWord 8 input offset

def codecZero (input : Bytes) (start stop : Nat) : Bool :=
  decide (start ≤ stop) && decide (stop ≤ input.length) && (slice input start stop).all (· == 0)

inductive CodecKind where
  | i64
  | f64
  | bool
  | str
deriving DecidableEq, Repr

def CodecKind.tag : CodecKind → UInt8
  | .i64 => 0
  | .f64 => 1
  | .bool => 2
  | .str => 3

def CodecKind.fromTag (tag : UInt8) : Option CodecKind :=
  if tag = 0 then some .i64 else if tag = 1 then some .f64 else if tag = 2 then some .bool
  else if tag = 3 then some .str else none

@[ext]
structure CodecDescriptor where
  nameOffset : Nat
  nameLen : Nat
  kind : CodecKind
  dataOffset : Nat
  dataLen : Nat
  auxOffset : Nat
  auxLen : Nat
deriving DecidableEq, Repr

def codecDescriptor (input : Bytes) (ordinal : Nat) : Option CodecDescriptor := do
  let base := codecHeaderLen + ordinal * codecDescriptorLen
  let kind ← input[base + 12]?.bind CodecKind.fromTag
  let flags ← input[base + 13]?
  if flags ≠ 0 ∨ codecZero input (base + 14) (base + 16) = false then none
  else
    let nameOffset ← (codecReadU64 input base).bind codecUsize
    let nameLen ← codecReadU32 input (base + 8)
    let dataOffset ← (codecReadU64 input (base + 16)).bind codecUsize
    let dataLen ← (codecReadU64 input (base + 24)).bind codecUsize
    let auxOffset ← (codecReadU64 input (base + 32)).bind codecUsize
    let auxLen ← (codecReadU64 input (base + 40)).bind codecUsize
    some ⟨nameOffset, nameLen, kind, dataOffset, dataLen, auxOffset, auxLen⟩

/-- The data length a kind needs, and whether it has an auxiliary area. -/
def codecExpectedLengths (kind : CodecKind) (rows : Nat) : Option (Nat × Bool) :=
  match kind with
  | .i64 | .f64 => (checkedMul rows 8).map (·, false)
  | .bool => (checkedAdd rows 7).map (· / 8, false)
  | .str => ((checkedAdd rows 1).bind (checkedMul · 4)).map (·, true)

/-- A loop over the descriptors, which every stage reads anew. -/
def eachDescriptor {σ : Type} (input : Bytes) (count : Nat)
    (step : σ → CodecDescriptor → Option σ) (start : σ) : Option σ :=
  (List.range count).foldlM (fun state ordinal => (codecDescriptor input ordinal).bind (step state))
    start

def checkLengths (rows : Nat) (_ : Unit) (d : CodecDescriptor) : Option Unit :=
  (codecExpectedLengths d.kind rows).bind fun (dataLen, aux) =>
    if d.dataLen ≠ dataLen then none
    else if aux = false ∧ (d.auxOffset ≠ 0 ∨ d.auxLen ≠ 0) then none
    else if aux = true ∧ ¬ d.auxLen < 2 ^ 31 then none
    else some ()

/-- Stage 4: names packed one after the other. -/
def nameTopology (cursor : Nat) (d : CodecDescriptor) : Option Nat :=
  if d.nameOffset ≠ cursor then none else checkedAdd cursor d.nameLen

def nameOf (input : Bytes) (d : CodecDescriptor) : Bytes :=
  slice input d.nameOffset (d.nameOffset + d.nameLen)

def checkName (input : Bytes) (_ : Unit) (d : CodecDescriptor) : Option Unit :=
  if d.nameLen = 0 then none
  else (checkedAdd d.nameOffset d.nameLen).bind fun stop =>
    if input.length < stop then none
    else if isUtf8 (slice input d.nameOffset stop) then some () else none

/-- The merge of two runs of ordinals by name; the left one wins ties. -/
def mergeRuns (input : Bytes) : List Nat → List Nat → Option (List Nat)
  | left :: lefts, right :: rights =>
      (codecDescriptor input left).bind fun leftDesc =>
        (codecDescriptor input right).bind fun rightDesc =>
          if nameOf input leftDesc ≤ nameOf input rightDesc then
            (mergeRuns input lefts (right :: rights)).map (left :: ·)
          else (mergeRuns input (left :: lefts) rights).map (right :: ·)
  | [], rights => some rights
  | lefts, [] => some lefts

/-- Neighbours in the sorted order have different names. -/
def checkDistinct (input : Bytes) : List Nat → Option Unit
  | first :: second :: rest =>
      (codecDescriptor input first).bind fun left =>
        (codecDescriptor input second).bind fun right =>
          if nameOf input left = nameOf input right then none
          else checkDistinct input (second :: rest)
  | _ => some ()

/-- The end of a buffer that starts at the cursor, and of its zero padding. -/
def paddedEnd (input : Bytes) (cursor len : Nat) : Option Nat :=
  (checkedAdd cursor len).bind fun stop =>
    if input.length < stop then none
    else (codecAlign8 stop).bind fun next =>
      if input.length < next then none
      else if codecZero input stop next then some next else none

/-- Stage 5: buffers packed one after the other. -/
def dataTopology (input : Bytes) (cursor : Nat) (d : CodecDescriptor) : Option Nat :=
  if d.dataOffset ≠ cursor then none
  else (paddedEnd input cursor d.dataLen).bind fun next =>
    if d.kind = .str then
      if d.auxOffset ≠ next then none else paddedEnd input next d.auxLen
    else some next

/-- The loop over the offset table of a string column, from row `row`. -/
def checkOffsets (input : Bytes) (d : CodecDescriptor) : Nat → Nat → Nat → Option Nat
  | 0, _, previous => some previous
  | left + 1, row, previous =>
      (codecReadU32 input (d.dataOffset + row * 4)).bind fun value =>
        if (row = 0 ∧ value ≠ 0) ∨ value < previous ∨ d.auxLen < value then none
        else if 0 < row ∧ isUtf8 (slice input (d.auxOffset + previous) (d.auxOffset + value)) = false
        then none
        else checkOffsets input d left (row + 1) value

/-- Stage 6: content that has only one encoding. -/
def checkContent (input : Bytes) (rows : Nat) (_ : Unit) (d : CodecDescriptor) : Option Unit :=
  match d.kind with
  | .bool =>
      if rows % 8 ≠ 0 ∧ d.dataLen ≠ 0 then
        if input.getD (d.dataOffset + d.dataLen - 1) 0 &&& (0xFF : UInt8) <<< UInt8.ofNat (rows % 8) ≠ 0
        then none else some ()
      else some ()
  | .str =>
      (checkOffsets input d (rows + 1) 0 0).bind fun previous =>
        if previous ≠ d.auxLen then none else some ()
  | _ => some ()

/-- Stage 1 and the counts of stage 2: total length, rows and columns. -/
def openHeader (input : Bytes) : Option (Nat × Nat × Nat) :=
  if input.length < codecHeaderLen then none
  else if input.take 8 ≠ codecMagic then none
  else if codecZero input 28 32 = false then none
  else ((codecReadU64 input 8).bind codecUsize).bind fun totalLen =>
    if totalLen ≠ input.length then none
    else ((codecReadU64 input 16).bind codecUsize).bind fun rowsWire =>
      (codecReadU32 input 24).bind fun columnCount =>
        if codecMaxColumns < columnCount then none else some (totalLen, rowsWire, columnCount)

/-- Names: packed, well formed, distinct and padded. The start of the data. -/
def openNames (input : Bytes) (columnCount namesStart : Nat) : Option Nat := do
  let nameCursor ← eachDescriptor input columnCount nameTopology namesStart
  eachDescriptor input columnCount (checkName input) ()
  let sorted ← mergePasses (mergeRuns input) 10 1 (List.range columnCount)
  checkDistinct input sorted
  let dataStart ← codecAlign8 nameCursor
  if input.length < dataStart then none
  else if codecZero input nameCursor dataStart = false then none
  else some dataStart

/-- Stages 3 to 6 over a table that lies inside the input. -/
def openTable (input : Bytes) (totalLen rows columnCount : Nat) : Option Unit := do
  let namesStart := codecHeaderLen + columnCount * codecDescriptorLen
  if input.length < namesStart then none
  else
    eachDescriptor input columnCount (checkLengths rows) ()
    let dataStart ← openNames input columnCount namesStart
    let dataCursor ← eachDescriptor input columnCount (dataTopology input) dataStart
    if dataCursor ≠ totalLen then none
    else eachDescriptor input columnCount (checkContent input rows) ()

/-- `align_rt_codec_open_v1` on a readable view. -/
def codecOpen (input : Bytes) : Option Unit :=
  (openHeader input).bind fun (totalLen, rowsWire, columnCount) =>
    -- Without columns the row count is not used and may be any wire value.
    openTable input totalLen (if columnCount = 0 then 0 else rowsWire) columnCount

inductive CodecColumnData where
  | i64 (data : Bytes)
  | f64 (data : Bytes)
  | bool (data : Bytes)
  | str (offsets values : Bytes)
deriving DecidableEq, Repr

structure CodecColumn where
  name : Bytes
  data : CodecColumnData
deriving DecidableEq, Repr

def CodecColumn.kind (column : CodecColumn) : CodecKind :=
  match column.data with
  | .i64 _ => .i64
  | .f64 _ => .f64
  | .bool _ => .bool
  | .str _ _ => .str

def CodecColumn.buffers (column : CodecColumn) : Bytes × Option Bytes :=
  match column.data with
  | .i64 data | .f64 data | .bool data => (data, none)
  | .str offsets values => (offsets, some values)

/-- `names` holds the column ordinals sorted by name. -/
structure CodecEncoder where
  rows : Nat
  columns : List CodecColumn
  names : List Nat
deriving DecidableEq, Repr

def codecEncoderNew (rows : Int64) : Option CodecEncoder :=
  if rows < 0 then none else some ⟨rows.toNatClampNeg, [], []⟩

def advance (cursor : Nat) (dataLen : Nat) (auxLen : Option Nat) : Option Nat :=
  ((checkedAdd cursor dataLen).bind codecAlign8).bind fun cursor =>
    match auxLen with
    | none => some cursor
    | some auxLen => (checkedAdd cursor auxLen).bind codecAlign8

def codecOutputLenParts (columns : List CodecColumn)
    (candidate : Option (Nat × Nat × Option Nat)) : Option Nat := do
  let columnCount ← checkedAdd columns.length (if candidate.isSome then 1 else 0)
  let cursor ← (checkedMul columnCount codecDescriptorLen).bind (checkedAdd codecHeaderLen)
  let cursor ← columns.foldlM (fun cursor column => checkedAdd cursor column.name.length) cursor
  let cursor ← match candidate with
    | none => some cursor
    | some (nameLen, _, _) => checkedAdd cursor nameLen
  let cursor ← codecAlign8 cursor
  let cursor ← columns.foldlM (fun cursor column =>
    advance cursor column.buffers.1.length (column.buffers.2.map List.length)) cursor
  let cursor ← match candidate with
    | none => some cursor
    | some (_, dataLen, auxLen) => advance cursor dataLen auxLen
  codecUsize cursor

def codecOutputLen (columns : List CodecColumn) (candidate : Option CodecColumn) : Option Nat :=
  codecOutputLenParts columns (candidate.map fun column =>
    (column.name.length, column.buffers.1.length, column.buffers.2.map List.length))

def columnName (columns : List CodecColumn) (ordinal : Nat) : Bytes :=
  (columns[ordinal]?.map CodecColumn.name).getD []

/-- `binary_search_by` on the sorted names, by its documented result: the first
position whose name is not below the given one, and whether it is equal. -/
def searchName (encoder : CodecEncoder) (name : Bytes) : Nat × Bool :=
  let position := (encoder.names.findIdx? fun ordinal =>
    !decide (columnName encoder.columns ordinal < name)).getD encoder.names.length
  (position, match encoder.names[position]? with
    | none => false
    | some ordinal => columnName encoder.columns ordinal == name)

/-- The status, true for success, and the encoder afterwards. -/
abbrev PutResult := Bool × CodecEncoder

def codecInsert (encoder : CodecEncoder) (column : CodecColumn) : PutResult :=
  if codecMaxColumns ≤ encoder.columns.length then (false, encoder)
  else if (searchName encoder column.name).2 then (false, encoder)
  else if (codecOutputLen encoder.columns (some column)).isNone then (false, encoder)
  else
    let position := (searchName encoder column.name).1
    (true, { encoder with
      columns := encoder.columns ++ [column]
      names := encoder.names.take position ++
        encoder.columns.length :: encoder.names.drop position })

/-- A pointer and a length as the compiler passes them. A positive length
promises that a pointer that is not null names that many items. -/
structure View (α : Type) where
  ptr : Option (List α)
  len : Int
  readable : ∀ items, ptr = some items → 0 < len → (items.length : Int) = len

def safeLen (len : Int) : Option Nat :=
  if 0 ≤ len ∧ len < 2 ^ 63 then some len.toNat else none

def View.items {α : Type} (view : View α) : List α :=
  if view.len ≤ 0 then [] else view.ptr.getD []

def codecName (view : View UInt8) : Option Bytes :=
  (safeLen view.len).bind fun len =>
    if len = 0 ∨ view.ptr.isNone ∨ ¬ len < 2 ^ 32 then none
    else if isUtf8 view.items then some view.items else none

/-- The bits of a bool column, set one by one. -/
def packBools (byteLen : Nat) (values : Bytes) : Bytes :=
  values.zipIdx.foldl (fun output (value, index) =>
    output.set (index / 8) (output.getD (index / 8) 0 |||
      (if value ≠ 0 then 1 else 0) <<< UInt8.ofNat (index % 8))) (zeros byteLen)

inductive FixedValues where
  | i64 (values : View UInt64)
  | f64 (values : View UInt64)
  | bool (values : View UInt8)

def FixedValues.len : FixedValues → Int
  | .i64 values | .f64 values => values.len
  | .bool values => values.len

def FixedValues.isNull : FixedValues → Bool
  | .i64 values | .f64 values => values.ptr.isNone
  | .bool values => values.ptr.isNone

def FixedValues.byteLen (values : FixedValues) (valuesLen : Nat) : Option Nat :=
  match values with
  | .i64 _ | .f64 _ => checkedMul valuesLen 8
  | .bool _ => (checkedAdd valuesLen 7).map (· / 8)

def FixedValues.stage (values : FixedValues) (byteLen : Nat) : CodecColumnData :=
  match values with
  | .i64 values => .i64 (values.items.flatMap fun v => toLe 8 v.toNat)
  | .f64 values => .f64 (values.items.flatMap fun v => toLe 8 v.toNat)
  | .bool values => .bool (packBools byteLen values.items)

def codecFixedWidthInput (encoder : CodecEncoder) (name : View UInt8) (values : FixedValues) :
    PutResult :=
  match codecName name with
  | none => (false, encoder)
  | some name =>
    if codecMaxColumns ≤ encoder.columns.length then (false, encoder)
    else match safeLen values.len with
    | none => (false, encoder)
    | some valuesLen =>
      if valuesLen ≠ encoder.rows then (false, encoder)
      else match values.byteLen valuesLen with
      | none => (false, encoder)
      | some byteLen =>
        if 0 < valuesLen ∧ values.isNull then (false, encoder)
        else if (searchName encoder name).2 then (false, encoder)
        else if (codecOutputLenParts encoder.columns (some (name.length, byteLen, none))).isNone then
          (false, encoder)
        else codecInsert encoder ⟨name, values.stage byteLen⟩

/-- The first loop over the cells: their total length. -/
def textTotal (cells : List (View UInt8)) : Option Nat :=
  cells.foldlM (fun total cell =>
    (safeLen cell.len).bind fun len =>
      if 0 < len ∧ cell.ptr.isNone then none
      else if isUtf8 cell.items = false then none
      else (checkedAdd total len).bind fun next => if next < 2 ^ 31 then some next else none) 0

def stageText (cells : List (View UInt8)) : Option (Bytes × Bytes) :=
  cells.foldlM (fun (offsets, data) cell =>
    (safeLen cell.len).bind fun _ =>
      let data := data ++ cell.items
      if data.length < 2 ^ 31 then some (offsets ++ toLe 4 data.length, data) else none)
    (toLe 4 0, [])

def codecEncoderPutStr (encoder : CodecEncoder) (name : View UInt8) (values : View (View UInt8)) :
    PutResult :=
  match codecName name with
  | none => (false, encoder)
  | some name =>
    if codecMaxColumns ≤ encoder.columns.length then (false, encoder)
    else match safeLen values.len with
    | none => (false, encoder)
    | some valuesLen =>
      if valuesLen ≠ encoder.rows then (false, encoder)
      else if 0 < valuesLen ∧ values.ptr.isNone then (false, encoder)
      else match textTotal values.items with
      | none => (false, encoder)
      | some total =>
        match (checkedAdd valuesLen 1).bind (checkedMul · 4) with
        | none => (false, encoder)
        | some offsetCapacity =>
          if (searchName encoder name).2 then (false, encoder)
          else if (codecOutputLenParts encoder.columns
              (some (name.length, offsetCapacity, some total))).isNone then (false, encoder)
          else match stageText values.items with
          | none => (false, encoder)
          | some (offsets, data) => codecInsert encoder ⟨name, .str offsets data⟩

inductive Put where
  | fixed (name : View UInt8) (values : FixedValues)
  | text (name : View UInt8) (values : View (View UInt8))

def CodecEncoder.put (encoder : CodecEncoder) : Put → PutResult
  | .fixed name values => codecFixedWidthInput encoder name values
  | .text name values => codecEncoderPutStr encoder name values

def codecWriteU32 (output : Bytes) (offset value : Nat) : Option Bytes :=
  store output offset (toLe 4 value)

def codecWriteU64 (output : Bytes) (offset value : Nat) : Option Bytes :=
  store output offset (toLe 8 value)

/-- The loop that writes names and the first half of each descriptor. -/
def writeNames : List CodecColumn → Nat → Nat → Bytes → Option (Nat × Bytes)
  | [], _, nameCursor, output => some (nameCursor, output)
  | column :: rest, descriptor, nameCursor, output => do
      let output ← codecWriteU64 output descriptor nameCursor
      if ¬ column.name.length < 2 ^ 32 then none
      else
        let output ← codecWriteU32 output (descriptor + 8) column.name.length
        let output ← store output (descriptor + 12) [column.kind.tag]
        let output ← store output nameCursor column.name
        writeNames rest (descriptor + codecDescriptorLen) (nameCursor + column.name.length) output

/-- One column's buffers and the second half of its descriptor. -/
def writeBuffers (column : CodecColumn) (descriptor dataCursor : Nat) (output : Bytes) :
    Option (Nat × Bytes) := do
  let output ← codecWriteU64 output (descriptor + 16) dataCursor
  let output ← codecWriteU64 output (descriptor + 24) column.buffers.1.length
  let output ← store output dataCursor column.buffers.1
  let next ← (checkedAdd dataCursor column.buffers.1.length).bind codecAlign8
  match column.buffers.2 with
  | none => some (next, output)
  | some aux =>
      let output ← codecWriteU64 output (descriptor + 32) next
      let output ← codecWriteU64 output (descriptor + 40) aux.length
      let output ← store output next aux
      let next ← (checkedAdd next aux.length).bind codecAlign8
      some (next, output)

def writeData : List CodecColumn → Nat → Nat → Bytes → Option (Nat × Bytes)
  | [], _, dataCursor, output => some (dataCursor, output)
  | column :: rest, descriptor, dataCursor, output =>
      (writeBuffers column descriptor dataCursor output).bind fun (next, output) =>
        writeData rest (descriptor + codecDescriptorLen) next output

def codecEncoderFinish (encoder : CodecEncoder) : Option Bytes := do
  let totalLen ← codecOutputLen encoder.columns none
  let output := zeros totalLen
  let output ← store output 0 codecMagic
  let output ← codecWriteU64 output 8 totalLen
  let output ← store output 16 (toLe 8 encoder.rows)
  if ¬ encoder.columns.length < 2 ^ 32 then none
  else
    let output ← codecWriteU32 output 24 encoder.columns.length
    let (nameCursor, output) ← writeNames encoder.columns codecHeaderLen
      (codecHeaderLen + encoder.columns.length * codecDescriptorLen) output
    let dataStart ← codecAlign8 nameCursor
    let (dataCursor, output) ← writeData encoder.columns codecHeaderLen dataStart output
    if dataCursor ≠ totalLen then none else some output

end Align.Columnar
