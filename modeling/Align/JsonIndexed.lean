import Align.JsonDecode
import Align.JsonIndex
import Align.Utf8Validate

/-! The indexed record decoders: a walk over the positions of the structural
bytes that collects the colons of each record, finds a key by reading backwards
from its colon, and decodes the record when it closes, first by the layout
learned from an earlier record and then by looking every key up. -/
namespace Align.JsonIndexed
open JsonText JsonParser JsonSkip JsonDecode
open Utf8Validate (Target validateUtf8)
open JsonIndex (jsonDecodeIndexScalar jsonDecodeIndexAvx2 jsonDecodeIndexNeon)

/-! Keys. The bytes in front of a position are listed nearest first. -/

def backwards (src : Bytes) (pos : Nat) : Bytes := (src.take pos).reverse

/-- Back to the opening quote: one with an even run of backslashes in front of it.
The result is the body and the bytes in front of that quote; the source gives up
at position 0. -/
def openingQuote : Bytes → Bytes → Option (Bytes × Bytes)
  | _, [] => none
  | raw, b :: before =>
      if b = quote ∧ (before.takeWhile (· == backslash)).length % 2 = 0 then
        if before.isEmpty then none else some (raw, before)
      else openingQuote (b :: raw) before

def keyBeforeColon (src : Bytes) (cpos : Nat) : Option Bytes :=
  match (backwards src cpos).dropWhile isWs with
  | [] => none
  | q :: before =>
      if q ≠ quote then none
      else
        (openingQuote [] before).bind fun (raw, before) =>
          -- an escaped opening quote: the body found is too short
          if before[1]? = some backslash then none
          else (jsonUnescapedLen raw).map fun _ => raw

/-- The clean key `name` stands right in front of the colon. -/
def cleanKeyMatches (name : Bytes) : Bytes → Bool
  | [] => false
  | q :: before =>
      q == quote && decide (name.length + 1 ≤ before.length) && before[name.length]? == some quote &&
        before[name.length + 1]? != some backslash && (before.take name.length).reverse == name

def keyMatchesBeforeColon (src : Bytes) (cpos : Nat) (name : Bytes) : Bool :=
  cleanKeyMatches name ((backwards src cpos).dropWhile isWs) ||
    (keyBeforeColon src cpos).any fun raw => raw.contains backslash && jsonStringEquals raw name

/-- Where a field of a record, and the tag of an optional one, are written. -/
structure FieldDst where
  fieldPtr : Nat → JsonField → Int → Option Nat
  bytePtr : Int → Int → Option Nat

/-- A row of `esz` bytes, at address 0 of its own memory. -/
def aosDst (esz : Int) : FieldDst where
  fieldPtr _ d width := if fits d.offset width esz then some d.offset.toNat else none
  bytePtr offset width := if fits offset width esz then some offset.toNat else none

/-- A cell in each of the columns; there is no place for a tag. -/
def soaDst (cols : List (Nat × Nat)) (row : Nat) : FieldDst where
  fieldPtr fi _ width :=
    (cols[fi]?).bind fun (off, stride) => if (stride : Int) ≠ width then none else some (off + row * stride)
  bytePtr _ _ := none

/-- Effects up to the first failure, and the value if there was none. -/
structure Attempt (α : Type) where
  effects : List Effect
  value : Option α

def Attempt.fail {α : Type} : Attempt α := ⟨[], none⟩

def Attempt.done {α : Type} (a : α) : Attempt α := ⟨[], some a⟩

def Attempt.bind {α β : Type} (first : Attempt α) (next : α → Attempt β) : Attempt β :=
  match first.value with
  | none => ⟨first.effects, none⟩
  | some a => ⟨first.effects ++ (next a).effects, (next a).value⟩

def Attempt.lift {α : Type} (value : Option α) : Attempt α := ⟨[], value⟩

def Attempt.map {α β : Type} (f : α → β) (attempt : Attempt α) : Attempt β := ⟨attempt.effects, attempt.value.map f⟩

section Record
variable (env : Env) (t : JsonSubTable JsonField) (dst : FieldDst) (src : Bytes)

/-- Only a whole value counts: behind it stands what ends a member. -/
def endsMember (rest : Bytes) : Out :=
  let rest := ws rest
  if peek rest = some comma ∨ peek rest = some closeBrace then .pass rest else .fail

/-- The `Some` tag, where there is a place for it. -/
def markPresent (tag : Option Nat) (rest : Bytes) : Out :=
  match tag with
  | none => .fail
  | some tag => ⟨[.write tag [.byte 1]], some rest⟩

/-- The value of a field from behind its colon, up to what ends the member. -/
def fieldBehind (cpos fi : Nat) (d : JsonField) : Out :=
  match (fieldWidth d).bind (dst.fieldPtr fi d) with
  | none => .fail
  | some p =>
      let rest := ws (src.drop (cpos + 1))
      let written :=
        if d.optTag < 0 then writeValue env d p rest
        else
          match skipNull rest with
          | some rest => .pass rest
          | none =>
              (writeValue env d p rest).andThen (markPresent (dst.bytePtr d.optTag 1))
      written.andThen endsMember

def writeFieldIndexed (cpos fi : Nat) (d : JsonField) : Attempt Unit :=
  let out := fieldBehind env dst src cpos fi d
  ⟨out.effects, out.rest.map fun _ => ()⟩

def findKey (raw : Bytes) : Option Nat := findFieldToken t.descs raw t.phf t.phfSeed

/-- The fast path over the colons and the learned layout. It has no arena, so that
an escaped string is never materialised twice. -/
def jsonSpeculate : List Nat → List Int → Attempt Unit
  | [], _ => .done ()
  | _ :: _, [] => .fail
  | cpos :: cols, fi :: pattern =>
      if fi < 0 then
        match keyBeforeColon src cpos with
        | none => .fail
        | some key => if (findKey t key).isNone then jsonSpeculate cols pattern else .fail
      else
        match t.descs[fi.toNat]? with
        | none => .fail
        | some d =>
            if ¬ keyMatchesBeforeColon src cpos d.name then .fail
            else
              (writeFieldIndexed (withoutArena env) dst src cpos fi.toNat d).bind fun _ =>
                jsonSpeculate cols pattern

/-- The loop of the slow path: what was seen and, per colon, the field found. -/
def fallbackLoop : List Nat → SeenSet → Attempt (SeenSet × List Int)
  | [], seen => .done (seen, [])
  | cpos :: cols, seen =>
      match keyBeforeColon src cpos with
      | none => .fail
      | some key =>
          match findKey t key with
          | none => (fallbackLoop cols seen).map fun (seen, pattern) => (seen, -1 :: pattern)
          | some fi =>
              match seen.mark fi, t.descs[fi]? with
              | some seen, some d =>
                  (writeFieldIndexed env dst src cpos fi d).bind fun _ =>
                    (fallbackLoop cols seen).map fun (seen, pattern) => (seen, (fi : Int) :: pattern)
              | _, _ => .fail

/-- The slow path returns the layout it learned. -/
def jsonFallback (cols : List Nat) : Attempt (List Int) :=
  (fallbackLoop env t dst src cols (.new t.descs.length)).bind fun (seen, pattern) =>
    if seen.allRequiredSeen t.descs then .done pattern else .fail

/-- The learned layout: how many colons, and the field at each. -/
structure Pattern where
  ncol : Int
  fields : List Int

/-- What the decoders do at the end of a record. The first argument says whether
the fast path is tried at all; `cleanup` stands between a failed fast path and the
slow one. -/
def decodeRecord (speculation : Bool) (cleanup : List Effect) (cols : List Nat) (pat : Pattern) :
    Attempt Pattern :=
  let spec := if speculation ∧ pat.ncol = cols.length then jsonSpeculate env t dst src cols pat.fields else .fail
  match spec.value with
  | some _ => ⟨spec.effects, some pat⟩
  | none =>
      let slow := jsonFallback env t dst src cols
      ⟨spec.effects ++ (cleanup ++ slow.effects), slow.value.map fun fields => ⟨cols.length, fields⟩⟩

end Record

/-- What a decoder does at the ends of the array and of a record. -/
structure Handler (S : Type) where
  arrayOpens : S → S
  recordOpens : S → S
  recordCloses : List Nat → S → Option S
  arrayCloses : Nat → Bool → S → Option S

/-- Depth 1 is the array, 2 a record, more a nested value. -/
structure Walk (S : Type) where
  depth : Int
  recCols : List Nat
  state : S

section Walking
variable {S : Type} (h : Handler S) (src : Bytes)

def step (pos : Nat) (last : Bool) (w : Walk S) : Option (Walk S) :=
  let b := src.getD pos 0
  if b = openBracket then
    some { w with depth := w.depth + 1, state := if w.depth + 1 = 1 then h.arrayOpens w.state else w.state }
  else if b = openBrace then
    if w.depth + 1 = 2 then some ⟨w.depth + 1, [], h.recordOpens w.state⟩
    else some { w with depth := w.depth + 1 }
  else if b = colon ∧ w.depth = 2 then some { w with recCols := w.recCols ++ [pos] }
  else if b = closeBrace then
    if w.depth = 2 then
      (h.recordCloses w.recCols w.state).map fun s => { w with depth := w.depth - 1, state := s }
    else some { w with depth := w.depth - 1 }
  else if b = closeBracket then
    if w.depth - 1 = 0 then
      (h.arrayCloses pos last w.state).map fun s => { w with depth := w.depth - 1, state := s }
    else some { w with depth := w.depth - 1 }
  else some w

def walk : List UInt32 → Walk S → Option (Walk S)
  | [], w => some w
  | pos :: idx, w => (step h src pos.toNat idx.isEmpty w).bind (walk idx)

end Walking

/-- `json_decode_index`; `pclmul` is the second feature its AVX2 path needs. -/
def jsonDecodeIndex (target : Target) (pclmul : Bool) (src : Bytes) : List UInt32 :=
  match target with
  | .x86_64 avx2 => if avx2 && pclmul then jsonDecodeIndexAvx2 src else jsonDecodeIndexScalar src
  | .aarch64 => jsonDecodeIndexNeon src
  | .other => jsonDecodeIndexScalar src

/-- How a decoder ends: the process aborts, the input is rejected, or a value. -/
inductive Outcome (α : Type) where
  | aborted
  | rejected
  | accepted (value : α)
  deriving DecidableEq

def Outcome.ofOption {α : Type} : Option α → Outcome α
  | none => .rejected
  | some value => .accepted value

structure Staging where
  rows : List (List Cell)
  count : Nat
  pat : Pattern
  started : Bool
  arrayClose : Nat

def noPattern : Pattern := ⟨-1, []⟩

/-- A row is opened, all zero, at its `{` and is the last one until its `}`. -/
def structArrayHandler (speculation : Bool) (env : Env) (t : JsonSubTable JsonField) (src : Bytes) :
    Handler Staging where
  arrayOpens s := { s with started := true }
  recordOpens s := { s with rows := s.rows ++ [snapshot (max t.storeSize 0).toNat []] }
  recordCloses cols s :=
    let esz := max t.storeSize 0
    let out := decodeRecord env t (aosDst esz) src speculation [.clean 0 t.descs none] cols s.pat
    out.value.map fun pat =>
      { s with rows := s.rows.dropLast ++ [snapshot esz.toNat out.effects], count := s.count + 1, pat := pat }
  arrayCloses pos last s := if ¬ last then none else some { s with arrayClose := pos }

/-- `align_rt_json_decode_struct_array`; the element size is the table's. -/
def decodeStructArray (speculation : Bool) (target : Target) (pclmul : Bool) (env : Env)
    (t : JsonSubTable JsonField) (src : Bytes) : Outcome (List (List Cell)) :=
  if ¬ validateUtf8 target src then .rejected
  else
    match jsonRecordArrayCount src with
    | none => .rejected
    | some expectedRows =>
        if 2 ^ 63 ≤ expectedRows then .rejected
        else if 2 ^ 32 - 1 < src.length then .aborted
        else
          match walk (structArrayHandler speculation env t src) src (jsonDecodeIndex target pclmul src)
              ⟨0, [], ⟨[], 0, noPattern, false, 0⟩⟩ with
          | none => .rejected
          | some w =>
              if ¬ w.state.started ∨ w.depth ≠ 0 ∨ w.state.count ≠ expectedRows then .rejected
              else if (src.drop (w.state.arrayClose + 1)).any fun b => !isWs b then .rejected
              else .accepted w.state.rows

def checkedUsize (v : Nat) : Option Nat := if v < 2 ^ 64 then some v else none

def soaColumnStart (off width : Nat) (first : Bool) : Option Nat :=
  if first ∨ width ≤ 1 then some off
  else
    (checkedUsize (off + (width - 1))).map fun aligned =>
      (UInt64.ofNat aligned &&& ~~~ UInt64.ofNat (width - 1)).toNat

/-- The columns from `off` on, and the bytes they end at. -/
def soaColumns (n : Nat) : Bool → Nat → List Nat → Option (List (Nat × Nat) × Nat)
  | _, off, [] => some ([], off)
  | first, off, w :: widths =>
      (soaColumnStart off w first).bind fun off =>
        (checkedUsize (n * w)).bind fun bytes =>
          (checkedUsize (off + bytes)).bind fun next =>
            (soaColumns n false next widths).map fun (cols, total) => ((off, w) :: cols, total)

def soaLayout (widths : List Nat) (n : Nat) : Option (List (Nat × Nat) × Nat) := soaColumns n true 0 widths

structure Columns where
  memory : Memory
  row : Nat
  pat : Pattern

def soaHandler (speculation : Bool) (env : Env) (t : JsonSubTable JsonField) (cols : List (Nat × Nat))
    (src : Bytes) : Handler Columns where
  arrayOpens s := s
  recordOpens s := s
  recordCloses recCols s :=
    let out := decodeRecord env t (soaDst cols s.row) src speculation [] recCols s.pat
    out.value.map fun pat => ⟨run out.effects s.memory, s.row + 1, pat⟩
  arrayCloses _ _ s := some s

/-- `align_rt_json_decode_soa`: the number of rows and the column buffer, whose
bytes start as `uninit`; without rows there is no buffer. -/
def decodeSoa (speculation : Bool) (target : Target) (pclmul : Bool) (env : Env) (t : JsonSubTable JsonField)
    (uninit : Memory) (src : Bytes) : Outcome (Nat × Option Memory) :=
  if ¬ env.arena then .rejected
  else if ¬ validateUtf8 target src then .rejected
  else
    match jsonRecordArrayCount src with
    | none => .rejected
    | some nRows =>
        if 2 ^ 32 - 1 < src.length then .aborted
        else if nRows = 0 then .accepted (0, none)
        else
          match soaLayout (t.descs.map JsonField.width) nRows with
          | none => .rejected
          | some (cols, total) =>
              if 2 ^ 63 ≤ total then .rejected
              else
                match walk (soaHandler speculation env t cols src) src (jsonDecodeIndex target pclmul src)
                    ⟨0, [], ⟨uninit, 0, noPattern⟩⟩ with
                | none => .rejected
                | some w => if w.state.row ≠ nRows then .rejected else .accepted (w.state.row, some w.state.memory)

end Align.JsonIndexed
