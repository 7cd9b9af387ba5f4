import Align.JsonSkip
import Align.WyHash

/-! Typed decoding: field descriptors, the values written for them, and the
sequential object decoder. No decoder reads the memory it writes, so a decoder is
modelled by the effects it has there, in order, and by the cursor behind the
value; `rest = none` is the source's `None`, and the effects are then those of the
failed attempt. -/
namespace Align.JsonDecode
open JsonText JsonParser JsonSkip

/-! Descriptors. A null pointer is `null`; a table or a union is what `sub` points
to according to the field's kind. -/

structure JsonSubTable (Field : Type) where
  descs : List Field
  storeSize : Int
  phf : Option (List Int)
  phfSeed : UInt64

structure JsonUnion (Field : Type) where
  arms : List Field
  classToArm : List Int
  enumTags : List Int
  storeSize : Int

inductive Sub (Field : Type) where
  | null
  | table (t : JsonSubTable Field)
  | union (u : JsonUnion Field)

structure JsonField where
  name : Bytes
  tag : UInt32
  offset : Int
  optTag : Int
  sub : Sub JsonField

/-- `(tag >> 8) & 0xff`. -/
def JsonField.kind (d : JsonField) : Nat := (d.tag >>> 8 &&& 0xff).toNat

def JsonField.width (d : JsonField) : Nat := (d.tag &&& 0xff).toNat

/-- Bit 16, the sign flag of an integer field. -/
def JsonField.signed (d : JsonField) : Bool := d.tag &&& 0x10000 != 0

def fieldWidth (d : JsonField) : Option Int :=
  if d.kind = 4 then
    match d.sub with
    | .table t => if 0 ≤ t.storeSize then some t.storeSize else none
    | _ => none
  else if d.kind = 6 then
    match d.sub with
    | .union u => if 0 ≤ u.storeSize then some u.storeSize else none
    | _ => none
  else some d.width

inductive SeenSet where
  | mask (m : UInt64)
  | big (v : List Bool)

def SeenSet.new (n : Nat) : SeenSet := if n ≤ 64 then .mask 0 else .big (List.replicate n false)

/-- `none` where the field was marked before. -/
def SeenSet.mark : SeenSet → Nat → Option SeenSet
  | .mask m, i =>
      let bit := (1 : UInt64) <<< UInt64.ofNat i
      if m &&& bit != 0 then none else some (.mask (m ||| bit))
  | .big v, i => if v.getD i false then none else some (.big (v.set i true))

def SeenSet.isSet : SeenSet → Nat → Bool
  | .mask m, i => decide (i < 64) && m &&& (1 : UInt64) <<< UInt64.ofNat i != 0
  | .big v, i => v.getD i false

def SeenSet.allRequiredSeen : SeenSet → List JsonField → Bool
  | .mask m, descs => descs.zipIdx.all fun (d, i) =>
      decide (0 ≤ d.optTag) || m &&& (1 : UInt64) <<< UInt64.ofNat i != 0
  | .big v, descs => descs.zipIdx.all fun (d, i) => decide (0 ≤ d.optTag) || v.getD i false

def jsonPhfHash (bytes : Bytes) (seed : UInt64) : UInt64 := WyHash.wyhash bytes seed

/-- The field of a clean key: one probe of the perfect-hash table, or a scan. -/
def findField (descs : List JsonField) (key : Bytes) (phf : Option (List Int)) (seed : UInt64) :
    Option Nat :=
  match phf with
  | some (slot :: slots) =>
      let table := slot :: slots
      let at' := (jsonPhfHash key seed &&& (UInt64.ofNat table.length - 1)).toNat
      let index := table.getD at' (-1)
      if index < 0 then none
      else if (descs[index.toNat]?).any fun d => d.name == key then some index.toNat
      else none
  | _ => descs.findIdx? fun d => d.name == key

/-- Places the names from the `i`-th on, or fails at a slot that is taken. -/
def placeNames (mask seed : UInt64) : Nat → List Bytes → List Int → Option (List Int)
  | _, [], slots => some slots
  | i, name :: names, slots =>
      let slot := (jsonPhfHash name seed &&& mask).toNat
      if slots[slot]? ≠ some (-1) then none else placeNames mask seed (i + 1) names (slots.set slot i)

def tryPhf (names : List Bytes) (m seed : Nat) : Option (List Int × UInt64) :=
  let seed := UInt64.ofNat seed
  (placeNames (UInt64.ofNat m - 1) seed 0 names (List.replicate m (-1))).map fun slots => (slots, seed)

/-- The compiler's table for the field names, if four sizes and 4096 seeds give one. -/
def buildPhf (names : List Bytes) : Option (List Int × UInt64) :=
  if names.length < 2 then none
  else
    let m := names.length.nextPowerOfTwo
    [m, 2 * m, 4 * m, 8 * m].findSome? fun m => (List.range 4096).findSome? (tryPhf names m)

def findFieldToken (descs : List JsonField) (raw : Bytes) (phf : Option (List Int)) (seed : UInt64) :
    Option Nat :=
  if ¬ raw.contains backslash then findField descs raw phf seed
  else descs.findIdx? fun d => jsonStringEquals raw d.name

/-! Memory. A byte of a pointer carries what it points to, so that values are
compared and not addresses. -/

inductive Cell where
  | byte (b : UInt8)
  | text (bytes : Bytes) (k : Nat)
  | owned (cells : List Cell) (k : Nat)

abbrev Memory := Nat → Cell

def zeroed : Memory := fun _ => .byte 0

inductive Effect where
  | write (start : Nat) (cells : List Cell)
  | zero (start len : Nat)
  | clean (base : Nat) (descs : List JsonField) (seen : Option SeenSet)

def store (start : Nat) (cells : List Cell) (m : Memory) : Memory :=
  fun k => if start ≤ k then (cells[k - start]?).getD (m k) else m k

def leBytes (w v : Nat) : List Cell := (List.range w).map fun k => .byte (UInt8.ofNat (v / 256 ^ k))

def nullPtr : List Cell := leBytes 8 0

def textView (bytes : Bytes) : List Cell :=
  (List.range 8).map (fun k => .text bytes k) ++ leBytes 8 bytes.length

/-- The header of an owned buffer; an empty one allocates nothing. -/
def ownedView (cells : List Cell) (count : Nat) : List Cell :=
  (if cells = [] then nullPtr else (List.range 8).map fun k => .owned cells k) ++ leBytes 8 count

/-! Releasing what a partial record owns. Only what stays in the record itself is
modelled: the slots set back to zero. -/

def JsonField.children (d : JsonField) : List JsonField :=
  match d.sub with
  | .null => []
  | .table t => t.descs
  | .union u => u.arms

theorem sizeOf_child {d d' : JsonField} (child : d' ∈ d.children) : sizeOf d' < sizeOf d := by
  obtain ⟨name, tag, offset, optTag, sub⟩ := d
  cases sub with
  | null => simp [JsonField.children] at child
  | table t =>
    obtain ⟨descs, storeSize, phf, phfSeed⟩ := t
    have inside := List.sizeOf_lt_of_mem (show d' ∈ descs from child)
    simp
    omega
  | union u =>
    obtain ⟨arms, classToArm, enumTags, storeSize⟩ := u
    have inside := List.sizeOf_lt_of_mem (show d' ∈ arms from child)
    simp
    omega

theorem field_induction {motive : JsonField → Prop}
    (step : ∀ d, (∀ d' ∈ d.children, motive d') → motive d) (d : JsonField) : motive d := by
  suffices all : ∀ size d, sizeOf d < size → motive d from all (sizeOf d + 1) d (Nat.lt_succ_self _)
  intro size
  induction size with
  | zero =>
    intro d small
    contradiction
  | succ size ih =>
    intro d small
    refine step d fun d' child => ih d' ?_
    have smaller := sizeOf_child child
    omega

theorem table_child {d d' : JsonField} (sub : d.sub = .table t) (member : d' ∈ t.descs) : d' ∈ d.children := by
  rw [JsonField.children, sub]
  exact member

theorem union_child {d d' : JsonField} {u : JsonUnion JsonField} (sub : d.sub = .union u)
    (member : d' ∈ u.arms) : d' ∈ d.children := by
  rw [JsonField.children, sub]
  exact member

def fill (start len : Nat) (m : Memory) : Memory := store start (List.replicate len (.byte 0)) m

def Cell.isZero : Cell → Bool
  | .byte b => b == 0
  | _ => false

/-- The `i32` stored at an address, where its bytes are plain ones. -/
def readTag (start : Nat) (m : Memory) : Option Int :=
  match m start, m (start + 1), m (start + 2), m (start + 3) with
  | .byte a, .byte b, .byte c, .byte d =>
      some (a.toUInt32 ||| b.toUInt32 <<< 8 ||| c.toUInt32 <<< 16 ||| d.toUInt32 <<< 24).toBitVec.toInt
  | _, _, _, _ => none

/-- What a field owns outside optional bookkeeping, given the release of the
fields of its sub-table or union. -/
def releaseOwned (d : JsonField) (inner : (d' : JsonField) → d' ∈ d.children → Nat → Memory → Memory)
    (start : Nat) (m : Memory) : Memory :=
  if d.kind = 5 ∨ d.kind = 7 ∨ d.kind = 8 ∨ d.kind = 9 then fill start 16 m
  else
    match sub : d.sub with
    | .null => m
    | .table t =>
        if d.kind = 4 then
          t.descs.attach.foldl (fun m field => inner field.val (table_child sub field.property) start m) m
        else m
    | .union u =>
        if d.kind = 6 then
          match found : (u.arms.zip u.enumTags).find? fun arm => some arm.2 == readTag start m with
          | some arm =>
              inner arm.1 (union_child sub (List.of_mem_zip (List.mem_of_find?_eq_some found)).1) start m
          | none => m
        else m

/-- A present optional field becomes an absent one, its whole slot cleared. -/
def clearOption (d : JsonField) (base : Nat) (m : Memory) : Memory :=
  let cleared := fill (base + d.optTag.toNat) 1 m
  match fieldWidth d with
  | some width => fill (base + d.offset.toNat) width.toNat cleared
  | none => cleared

/-- An absent optional field, or a descriptor whose offset is no address. -/
def ownsNothing (d : JsonField) (base : Nat) (m : Memory) : Bool :=
  decide (0 ≤ d.optTag) && (m (base + d.optTag.toNat)).isZero || decide (d.offset < 0)

/-- `drop_decoded_owned` for one field that is not gated away. -/
def dropField (d : JsonField) (base : Nat) (m : Memory) : Memory :=
  if ownsNothing d base m then m
  else
    let released := releaseOwned d (fun d' _ => dropField d') (base + d.offset.toNat) m
    if 0 ≤ d.optTag then clearOption d base released else released
termination_by sizeOf d
decreasing_by
  rename_i child
  exact sizeOf_child child

def dropDecodedOwned (base : Nat) (descs : List JsonField) (onlySeen : Option SeenSet) (m : Memory) : Memory :=
  descs.zipIdx.foldl (fun m (d, i) => if onlySeen.any fun seen => !seen.isSet i then m else dropField d base m) m

def Effect.apply : Effect → Memory → Memory
  | .write start cells, m => store start cells m
  | .zero start len, m => fill start len m
  | .clean base descs seen, m => dropDecodedOwned base descs seen m

def run (effects : List Effect) (m : Memory) : Memory := effects.foldl (fun m e => e.apply m) m

/-- The bytes of a buffer that was zeroed and then written. -/
def snapshot (size : Nat) (effects : List Effect) : List Cell := (List.range size).map (run effects zeroed)

def checkedI64 (v : Int) : Option Int := if -2 ^ 63 ≤ v ∧ v < 2 ^ 63 then some v else none

def checkedU64 (v : Nat) : Option Nat := if v < 2 ^ 64 then some v else none

def digitValue (b : UInt8) : Nat := b.toNat - 0x30

/-- Digits accumulated as a negative magnitude, so that `i64::MIN` stays representable. -/
def accumulate : Bytes → Int → Option Int
  | [], v => some v
  | b :: rest, v =>
      (checkedI64 (v * 10)).bind fun x => (checkedI64 (x - digitValue b)).bind fun nv => accumulate rest nv

def accumulateUnsigned : Bytes → Nat → Option Nat
  | [], v => some v
  | b :: rest, v =>
      (checkedU64 (v * 10)).bind fun x => (checkedU64 (x + digitValue b)).bind fun nv =>
        accumulateUnsigned rest nv

/-- No digit at all, or a leading zero in front of others. -/
def malformed (digits : Bytes) : Bool := digits.isEmpty || (decide (1 < digits.length) && digits.head? == some 0x30)

def integer (rest : Bytes) : Option (Int × Bytes) :=
  let sign := signSpan (· == 0x2D) rest
  let digits := digitRun sign.2
  (accumulate digits.1 0).bind fun v =>
    if malformed digits.1 then none
    else if sign.1.isEmpty then (checkedI64 (-v)).map fun v => (v, digits.2)
    else some (v, digits.2)

def integerUnsigned (rest : Bytes) : Option (Nat × Bytes) :=
  if peek rest = some 0x2D then none
  else
    let digits := digitRun rest
    (accumulateUnsigned digits.1 0).bind fun v =>
      if malformed digits.1 then none else some (v, digits.2)

def intInRange (v : Int) (w : Nat) (signed : Bool) : Bool :=
  if w = 0 then false
  else if signed then
    decide (8 ≤ w) || decide (-2 ^ (w * 8 - 1) ≤ v ∧ v ≤ 2 ^ (w * 8 - 1) - 1)
  else if v < 0 then false
  else decide (8 ≤ w) || decide (v ≤ 2 ^ (w * 8) - 1)

/-- The bit pattern to store; the caller takes its low `w` bytes. -/
def integerField (w : Nat) (signed : Bool) (rest : Bytes) : Option (Nat × Bytes) :=
  if ¬ signed ∧ w = 8 then integerUnsigned rest
  else
    (integer rest).bind fun (v, rest) =>
      if ¬ intInRange v w signed then none else some ((v % 2 ^ 64).toNat, rest)

/-- The third-party conversion of a number token to the bits of a float. -/
structure Floats where
  f64 : Bytes → Option UInt64
  f32 : Bytes → Option UInt32

/-- What the decoders are given besides the input: the float conversion, and
whether there is an arena for escaped strings. -/
structure Env where
  floats : Floats
  arena : Bool

def withoutArena (env : Env) : Env := { env with arena := false }

def stringValue (env : Env) (rest : Bytes) : Option (Bytes × Bytes) :=
  (stringBody rest).bind fun (raw, rest) =>
    if ¬ raw.contains backslash then some (raw, rest)
    else if ¬ env.arena then none
    else (jsonUnescapedLen raw).bind fun len => (jsonUnescapeTo raw len).map fun text => (text, rest)

def ownedStringValue (rest : Bytes) : Option (Bytes × Bytes) :=
  (stringBody rest).bind fun (raw, rest) =>
    if raw.contains backslash then
      (jsonUnescapedLen raw).bind fun len =>
        if 0 < len then (jsonUnescapeTo raw len).map fun text => (text, rest) else some ([], rest)
    else some (raw, rest)

def ownedString (text : Bytes) : List Cell := ownedView (text.map Cell.byte) text.length

def items {α : Type} (elem : Bytes → Option (α × Bytes)) : Nat → Bytes → Option (List α × Bytes)
  | 0, _ => none
  | fuel + 1, rest =>
      (elem rest).bind fun (first, rest) =>
        let rest := ws rest
        if peek rest = some comma then
          (items elem fuel (ws rest.tail)).map fun (others, rest) => (first :: others, rest)
        else if peek rest = some closeBracket then some ([first], rest.tail)
        else none

/-- The shape the array decoders share; every element consumes a byte at least. -/
def arrayOf {α : Type} (elem : Bytes → Option (α × Bytes)) (rest : Bytes) : Option (List α × Bytes) :=
  (expect openBracket (ws rest)).bind fun rest =>
    let rest := ws rest
    if peek rest = some closeBracket then some ([], rest.tail) else items elem rest.length rest

/-- The cells of one value whose kind needs no descriptor: kinds 1 to 3, 8, 9, and
integers for every other number. -/
def writeLeaf (env : Env) (kind w : Nat) (signed : Bool) (rest : Bytes) : Option (List Cell × Bytes) :=
  match kind with
  | 1 =>
      if w ≠ 1 then none
      else (boolean rest).map fun (v, rest) => ([.byte (if v then 1 else 0)], rest)
  | 2 =>
      if w ≠ 4 ∧ w ≠ 8 then none
      else
        (numberSpan rest).bind fun (span, rest) =>
          if w = 4 then (env.floats.f32 span).map fun bits => (leBytes 4 bits.toNat, rest)
          else (env.floats.f64 span).map fun bits => (leBytes 8 bits.toNat, rest)
  | 3 =>
      if w ≠ 16 then none else (stringValue env rest).map fun (text, rest) => (textView text, rest)
  | 8 =>
      if w ≠ 16 then none else (ownedStringValue rest).map fun (text, rest) => (ownedString text, rest)
  | 9 =>
      if w ≠ 16 then none
      else
        (arrayOf ownedStringValue rest).map fun (texts, rest) =>
          (ownedView (texts.map ownedString).flatten texts.length, rest)
  | _ =>
      if w ≠ 1 ∧ w ≠ 2 ∧ w ≠ 4 ∧ w ≠ 8 then none
      else (integerField w signed rest).map fun (v, rest) => (leBytes w v, rest)

def scalarArray (elem : Bytes → Option (List Cell × Bytes)) (rest : Bytes) : Option (List Cell × Bytes) :=
  (arrayOf elem rest).map fun (parts, rest) => (ownedView parts.flatten parts.length, rest)

/-- One element of an `array<scalar>`. Its synthetic descriptor has no sub-table
and no element bits of its own. -/
def writeElem (env : Env) (kind w : Nat) (signed : Bool) (rest : Bytes) : Option (List Cell × Bytes) :=
  if kind = 4 ∨ kind = 5 ∨ kind = 6 then none
  else if kind = 7 then if w ≠ 16 then none else scalarArray (writeLeaf env 0 0 false) rest
  else writeLeaf env kind w signed rest

structure Out where
  effects : List Effect
  rest : Option Bytes

def Out.fail : Out := ⟨[], none⟩

def Out.pass (rest : Bytes) : Out := ⟨[], some rest⟩

def Out.andThen (first : Out) (next : Bytes → Out) : Out :=
  match first.rest with
  | none => first
  | some rest => ⟨first.effects ++ (next rest).effects, (next rest).rest⟩

def Out.ofCells (start : Nat) : Option (List Cell × Bytes) → Out
  | none => .fail
  | some (cells, rest) => ⟨[.write start cells], some rest⟩

/-- `offset + width` stays inside `size` bytes. -/
def fits (offset width size : Int) : Bool := decide (0 ≤ offset) && decide (offset + width ≤ size)

/-- The `Some` tag behind a written payload. -/
def setTag (d : JsonField) (base : Nat) (size : Int) (rest : Bytes) : Out :=
  if d.optTag ≥ size then .fail else ⟨[.write (base + d.optTag.toNat) [.byte 1]], some rest⟩

/-- One declared field of the object at `base`: `null` leaves an optional field
absent, any other value is written and its tag set behind it. -/
def writeField (value : Nat → Bytes → Out) (d : JsonField) (base : Nat) (size : Int) (rest : Bytes) : Out :=
  match fieldWidth d with
  | none => .fail
  | some width =>
      if ¬ fits d.offset width size then .fail
      else if d.optTag < 0 then value (base + d.offset.toNat) rest
      else
        match skipNull rest with
        | some rest => .pass rest
        | none => (value (base + d.offset.toNat) rest).andThen (setTag d base size)

/-- One member of `parse_object`, up to the end of its value. The second result
is what was seen, on failure too. -/
def member (find : Bytes → Option Nat) (field : Nat → Bytes → Out) (seen : SeenSet) (rest : Bytes) :
    Out × SeenSet :=
  match stringBody (ws rest) with
  | none => (.fail, seen)
  | some (key, rest) =>
      match expect colon (ws rest) with
      | none => (.fail, seen)
      | some rest =>
          match find key with
          | none => (⟨[], skipValue (ws rest)⟩, seen)
          | some i =>
              match seen.mark i with
              | none => (.fail, seen)
              | some seen => (field i (ws rest), seen)

/-- What follows a member: a comma and the others, or the closing brace. -/
def delimit (first : Out) (seen : SeenSet) (others : SeenSet → Bytes → Out × SeenSet) : Out × SeenSet :=
  match first.rest.map ws with
  | none => (first, seen)
  | some rest =>
      if peek rest = some comma then
        let next := others seen rest.tail
        (⟨first.effects ++ next.1.effects, next.1.rest⟩, next.2)
      else if peek rest = some closeBrace then (⟨first.effects, some rest.tail⟩, seen)
      else (⟨first.effects, none⟩, seen)

def members (find : Bytes → Option Nat) (field : Nat → Bytes → Out) : Nat → SeenSet → Bytes → Out × SeenSet
  | 0, seen, _ => (.fail, seen)
  | fuel + 1, seen, rest =>
      let first := member find field seen rest
      delimit first.1 first.2 (members find field fuel)

def objectBody (descs : List JsonField) (find : Bytes → Option Nat) (field : Nat → Bytes → Out)
    (rest : Bytes) : Out × SeenSet :=
  match expect openBrace (ws rest) with
  | none => (.fail, .new descs.length)
  | some rest =>
      let rest := ws rest
      if peek rest = some closeBrace then (.pass rest.tail, .new descs.length)
      else members find field rest.length (.new descs.length) rest

/-- `parse_object` over the writer of each field. A failure, and a required field
that never came, release what was written. -/
def objectWith (descs : List JsonField) (find : Bytes → Option Nat) (field : Nat → Bytes → Out)
    (base : Nat) (rest : Bytes) : Out :=
  let found := objectBody descs find field rest
  if found.1.rest.isSome && found.2.allRequiredSeen descs then found.1
  else ⟨found.1.effects ++ [.clean base descs (some found.2)], none⟩

def jsonShapeClass (first : UInt8) : Option Nat :=
  if first = quote then some 0
  else if first = 0x2D ∨ isDigit first then some 1
  else if first = 0x74 ∨ first = 0x66 then some 2
  else if first = openBrace then some 3
  else if first = openBracket then some 4
  else none

/-- The arm a value's first byte selects, if its payload fits and its tag is known. -/
def selectArm (u : JsonUnion JsonField) (rest : Bytes) : Option (Nat × Int) :=
  (peek rest).bind fun first =>
    (jsonShapeClass first).bind fun cls =>
      (u.classToArm[cls]?).bind fun arm =>
        if arm < 0 then none
        else
          (u.arms[arm.toNat]?).bind fun d =>
            (fieldWidth d).bind fun width =>
              if d.offset < 0 ∨ width < 0 ∨ u.storeSize < 0 ∨ d.offset + width > u.storeSize then none
              else (u.enumTags[arm.toNat]?).map fun tag => (arm.toNat, tag)

/-- `decode_union_value` over the writer of the selected arm. -/
def unionWith (u : JsonUnion JsonField) (arm : Nat → Bytes → Out) (base : Nat) (rest : Bytes) : Out :=
  let rest := ws rest
  match selectArm u rest with
  | none => .fail
  | some (i, tag) =>
      let out := arm i rest
      match out.rest with
      | none =>
          ⟨out.effects ++ [.clean base (u.arms[i]?).toList none, .zero base u.storeSize.toNat], none⟩
      | some rest => ⟨out.effects ++ [.write base (leBytes 4 (tag % 2 ^ 32).toNat)], some rest⟩

/-- The writer for index `i` of a list of fields, if there is one. -/
def fieldAt (fields : List JsonField) (writer : (d : JsonField) → d ∈ fields → Bytes → Out) (i : Nat)
    (rest : Bytes) : Out :=
  match found : fields[i]? with
  | none => .fail
  | some d => writer d (List.mem_of_getElem? found) rest

def tableObject (t : JsonSubTable JsonField)
    (value : (d : JsonField) → d ∈ t.descs → Nat → Bytes → Out) (base : Nat) (size : Int) (rest : Bytes) : Out :=
  objectWith t.descs (fun key => findFieldToken t.descs key t.phf t.phfSeed)
    (fieldAt t.descs fun d member => writeField (value d member) d base size) base rest

/-- One `write_value`, given that of the fields below. The width argument is the
field's own `fieldWidth`. -/
def writeWith (env : Env) (d : JsonField) (inner : (d' : JsonField) → d' ∈ d.children → Nat → Bytes → Out)
    (start : Nat) (rest : Bytes) : Out :=
  if d.kind = 7 then
    if d.width ≠ 16 then .fail
    else
      .ofCells start
        (scalarArray (writeElem env (d.tag >>> 20 &&& 0xf).toNat (d.tag >>> 24 &&& 0x1f).toNat d.signed) rest)
  else if d.kind = 4 ∨ d.kind = 5 ∨ d.kind = 6 then
    match sub : d.sub with
    | .null => .fail
    | .table t =>
        if d.kind = 4 then
          tableObject t (fun d' member => inner d' (table_child sub member)) start t.storeSize rest
        else if d.kind = 5 ∧ d.width = 16 then
          let size := max t.storeSize 0
          let elem := fun rest =>
            let out := tableObject t (fun d' member => inner d' (table_child sub member)) 0 size rest
            out.rest.map fun rest => (snapshot size.toNat out.effects, rest)
          .ofCells start (scalarArray elem rest)
        else .fail
    | .union u =>
        if d.kind = 6 then
          unionWith u
            (fieldAt u.arms fun d' member => inner d' (union_child sub member) (start + d'.offset.toNat))
            start rest
        else .fail
  else .ofCells start (writeLeaf env d.kind d.width d.signed rest)

def writeValue (env : Env) (d : JsonField) (start : Nat) (rest : Bytes) : Out :=
  writeWith env d (fun d' _ => writeValue env d') start rest
termination_by sizeOf d
decreasing_by
  rename_i child
  exact sizeOf_child child

/-- `parse_object` at the top: the record lies at address 0. -/
def parseObject (env : Env) (descs : List JsonField) (size : Int) (phf : Option (List Int)) (seed : UInt64)
    (rest : Bytes) : Out :=
  tableObject ⟨descs, size, phf, seed⟩ (fun d _ => writeValue env d) 0 size rest

end Align.JsonDecode
